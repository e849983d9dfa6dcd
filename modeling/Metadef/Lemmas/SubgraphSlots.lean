import Metadef.Lib.Distinct
import Metadef.OpSerialize

/-!
# Slots restored from a list of names

What the loop over the names of a saved descriptor leaves in the slots: the longest beginning of the list without
repeats, and an empty slot for each further distinct name.
-/

namespace Metadef

open List

namespace SlotAux

open Distinct ModelSerializeImp

/-- The slots a list of names is read back into. -/
def restored (names : List String) : List String :=
  distinctPrefix names ++ List.replicate (distinctCount names - (distinctPrefix names).length) ""

/-- A descriptor that has read a list of names: one slot index for each distinct name, and the restored slots. -/
structure Restored (names : List String) (op : OpDesc) : Prop where
  slots : op.subgraphInstanceNames = restored names
  known : ∀ n, op.subgraphNamesToIndex.contains n = true ↔ n ∈ names
  count : op.subgraphNamesToIndex.length = distinctCount names

/-- There are as many restored slots as distinct names. -/
theorem length_restored (names : List String) : (restored names).length = distinctCount names := by
  have := length_distinctPrefix_le names
  simp only [restored, length_append, length_replicate]
  omega

variable {names l : List String} {n p : String} {op : OpDesc} {d : OpDef}

/-- A list without repeats is restored as it is. -/
theorem restored_of_nodup (h : names.Nodup) : restored names = names := by
  simp [restored, distinctPrefix_of_nodup h, distinctCount_of_nodup h]

/-- A name that repeats restores nothing new. -/
theorem restored_concat_of_mem (h : n ∈ names) : restored (names ++ [n]) = restored names := by
  have hrep : ¬ (names ++ [n]).Nodup := by
    simp [nodup_append, h]
  rw [restored, distinctPrefix_concat_of_not_nodup hrep, distinctCount_append_of_subset (by simpa using h), restored]

/-- A new name after a repeat restores an empty slot. -/
theorem restored_concat_of_new (hn : n ∉ names) (h : ¬ names.Nodup) : restored (names ++ [n]) = restored names ++ [""] := by
  have hlt := length_distinctPrefix_le names
  rw [restored, distinctPrefix_append_of_not_nodup h,
    distinctCount_append_of_new (a := n) (by simp) (by simp) hn, Nat.succ_sub hlt, replicate_succ', restored,
    append_assoc]

/-- Fewer distinct names than names when one repeats. -/
theorem distinctCount_lt (h : ¬ names.Nodup) : distinctCount names < names.length :=
  lt_of_le_of_ne (distinctCount_le names) fun e => h (nodup_of_distinctCount e)

/-- Reading one more name at its position restores it too. -/
theorem Restored.read (h : Restored names op) (n : String) :
    Restored (names ++ [n]) ((op.addSubgraphName n).2.setSubgraphInstanceName names.length n).2 := by
  have hlen : op.subgraphInstanceNames.length = distinctCount names := by rw [h.slots, length_restored]
  by_cases hn : n ∈ names
  · have hin : op.subgraphNamesToIndex.contains n = true := (h.known n).mpr hn
    have hle : op.subgraphInstanceNames.length ≤ names.length := hlen ▸ distinctCount_le names
    simp only [OpDesc.addSubgraphName, hin, OpDesc.setSubgraphInstanceName, hle, if_true]
    refine ⟨h.slots.trans (restored_concat_of_mem hn).symm, fun m => ?_, ?_⟩
    · rw [h.known m, mem_append, mem_singleton]
      exact ⟨.inl, fun hm => hm.elim id fun e => e ▸ hn⟩
    · rw [h.count, distinctCount_append_of_subset (by simpa using hn)]
  · have hin : op.subgraphNamesToIndex.contains n = false := by simpa using mt (h.known n).mp hn
    have hnew := distinctCount_append_of_new (l := names) (r := [n]) (a := n) (by simp) (by simp) hn
    have hadd : (op.addSubgraphName n).2 = { op with
        subgraphNamesToIndex := op.subgraphNamesToIndex.assign n (distinctCount names)
        subgraphInstanceNames := restored names ++ [""] } := by
      simp only [OpDesc.addSubgraphName, hin, Bool.false_eq_true, if_false, h.count, OpDesc.resize, h.slots,
        length_restored, Nat.add_sub_cancel_left, replicate_one]
      rw [take_of_length_le (by rw [length_restored]; omega)]
    have hknown : ∀ m, (op.subgraphNamesToIndex.assign n (distinctCount names)).contains m = true ↔ m ∈ names ++ [n] := by
      intro m
      rw [OrderedMap.contains_assign hin, h.known m, mem_append, mem_singleton, or_comm]
    have hcount : (op.subgraphNamesToIndex.assign n (distinctCount names)).length = distinctCount (names ++ [n]) := by
      rw [OrderedMap.length_assign_of_new hin, h.count, hnew]
    rw [hadd]
    by_cases hd : names.Nodup
    · have hnd : (names ++ [n]).Nodup := by
        refine nodup_append.mpr ⟨hd, nodup_singleton n, ?_⟩
        rintro a ha b hb rfl
        exact hn (mem_singleton.mp hb ▸ ha)
      have hset : ¬ (restored names ++ [""]).length ≤ names.length := by
        rw [length_append, length_restored, distinctCount_of_nodup hd]
        simp
      simp only [OpDesc.setSubgraphInstanceName, hset, if_false]
      refine ⟨?_, hknown, hcount⟩
      show (restored names ++ [""]).set names.length n = _
      rw [restored_of_nodup hnd, restored_of_nodup hd]
      simp
    · have hset : (restored names ++ [""]).length ≤ names.length := by
        have := distinctCount_lt hd
        rw [length_append, length_restored]
        exact this
      simp only [OpDesc.setSubgraphInstanceName, hset, if_true]
      exact ⟨(restored_concat_of_new hn hd).symm, hknown, hcount⟩

/-- The loop over the names restores them after those it starts with, while the positions fit the counter. -/
theorem addSubgraphNames_restored : ∀ (rest names : List String) (op : OpDesc), Restored names op →
    names.length + rest.length ≤ 2 ^ 32 → Restored (names ++ rest) (addSubgraphNames rest (names.length % 2 ^ 32) op) := by
  intro rest
  induction rest with
  | nil => intro names op h _; simpa [addSubgraphNames] using h
  | cons n rest ih =>
    intro names op h hle
    simp only [length_cons] at hle
    have hlt : names.length % 2 ^ 32 = names.length := Nat.mod_eq_of_lt (by omega)
    have hread := ih (names ++ [n]) _ (h.read n) (by simp only [length_append, length_singleton]; omega)
    rw [append_assoc, singleton_append, length_append, length_singleton] at hread
    rw [addSubgraphNames, hlt]
    exact hread

/-- Loading restores the names of the message. -/
theorem unserializeOpDesc_slots (h : d.subgraphName.length ≤ 2 ^ 32) :
    (unserializeOpDesc d).subgraphInstanceNames = restored d.subgraphName := by
  have hstart : Restored [] { opDef := { d with inputNameKey := none, inputNameValue := none, outputNameKey := none
                                                outputNameValue := none, optInput := none }
                              inputsDesc := d.inputDesc, outputsDesc := d.outputDesc } :=
    ⟨rfl, by simp [OrderedMap.contains], rfl⟩
  exact (addSubgraphNames_restored d.subgraphName [] _ hstart (by simpa using h)).slots

/-- The names of the message written: those it held and the instance names, when they fit. -/
theorem serializeOpDesc_subgraphName (h : serializeOpDesc op = some d) :
    d.subgraphName = op.opDef.subgraphName ++ op.subgraphInstanceNames ∧ d.subgraphName.length ≤ repeatedFieldMax := by
  simp only [serializeOpDesc] at h
  split at h
  · cases h
  · rename_i hle
    have hd : d.subgraphName = op.opDef.subgraphName ++ op.subgraphInstanceNames := by
      rw [← Option.some.inj h]
      simp only [opDescToAttrDef]
      repeat' split
      all_goals rfl
    exact ⟨hd, by rw [hd]; omega⟩

/-! ## When a list is restored as its own second part -/

/-- A list that begins like the one before it, with items of that list and empty names, adds no beginning. -/
theorem restored_append {k : Nat} (h : names = distinctPrefix (p :: l) ++ List.replicate k "") :
    distinctPrefix (p :: l ++ names) = distinctPrefix (p :: l) ∧
      distinctCount (p :: l ++ names) =
        distinctCount (p :: l) + if "" ∈ names ∧ "" ∉ p :: l then 1 else 0 := by
  have hmem : ∀ x ∈ names, x ∈ p :: l ∨ x = "" := by
    intro x hx
    rw [h, mem_append, mem_replicate] at hx
    exact hx.imp (fun hx => distinctPrefix_subset _ hx) And.right
  constructor
  · rw [h]
    exact distinctPrefix_append_head l _
  · split
    · rename_i he
      exact distinctCount_append_of_new hmem he.1 he.2
    · rename_i he
      refine distinctCount_append_of_subset fun x hx => (hmem x hx).elim id ?_
      rintro rfl
      exact by_contra fun hp => he ⟨hx, hp⟩

/-- Restoring a list and its second part gives the second part only when that is the restored first part, with one
    empty name more if the first part has none. -/
theorem restored_append_eq_iff : restored (p :: l ++ names) = names ↔
      (names = restored (p :: l) ∧ ("" ∈ names → "" ∈ p :: l)) ∨ (names = restored (p :: l) ++ [""] ∧ "" ∉ p :: l) := by
  have hle := length_distinctPrefix_le (p :: l)
  constructor
  · intro h
    have hhead : ∃ r, names = p :: r := ⟨_, by rw [← h]; rfl⟩
    obtain ⟨r, hr⟩ := hhead
    have hdp : distinctPrefix (p :: l ++ names) = distinctPrefix (p :: l) := by
      rw [hr]; exact distinctPrefix_append_head l r
    have hform := h.symm
    rw [restored, hdp] at hform
    obtain ⟨-, hcount⟩ := restored_append hform
    rw [hcount] at hform
    by_cases he : "" ∈ names ∧ "" ∉ p :: l
    · right
      rw [if_pos he, Nat.succ_sub hle, replicate_succ', ← append_assoc] at hform
      exact ⟨hform, he.2⟩
    · left
      rw [if_neg he, Nat.add_zero] at hform
      exact ⟨hform, fun hn => by_contra fun hp => he ⟨hn, hp⟩⟩
  · rintro (⟨h, he⟩ | ⟨h, he⟩)
    · obtain ⟨hdp, hcount⟩ := restored_append (h.trans rfl)
      rw [if_neg fun e => e.2 (he e.1), Nat.add_zero] at hcount
      rw [restored, hdp, hcount]
      exact h.symm
    · have hform : names = distinctPrefix (p :: l) ++
          List.replicate (distinctCount (p :: l) + 1 - (distinctPrefix (p :: l)).length) "" := by
        rw [h, restored, Nat.succ_sub hle, replicate_succ', append_assoc]
      obtain ⟨hdp, hcount⟩ := restored_append hform
      rw [if_pos ⟨by rw [h]; simp, he⟩] at hcount
      rw [restored, hdp, hcount]
      exact hform.symm

/-- A list alone is restored as it is only when nothing in it repeats. -/
theorem restored_eq_self_iff : restored names = names ↔ names.Nodup := by
  refine ⟨fun h => nodup_of_distinctCount ?_, restored_of_nodup⟩
  rw [← length_restored, h]

end SlotAux

end Metadef
