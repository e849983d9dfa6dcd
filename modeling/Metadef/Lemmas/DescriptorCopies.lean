import Metadef.Lemmas.Loading
import Metadef.Lemmas.SubgraphSlots

/-!
# What a copy of a descriptor has of the original

The members the message carries are read back, the names as far as the message carried none before, and the subgraph names as
a list of names that asks for slots.
-/

namespace Metadef

open List OrderedMap

open Distinct ModelSerializeImp SlotAux AttrUtils

/-- The message carries none of the attributes the names travel in. -/
structure OpDef.NoNames (d : OpDef) : Prop where
  inputNameKey : d.inputNameKey = none
  inputNameValue : d.inputNameValue = none
  outputNameKey : d.outputNameKey = none
  outputNameValue : d.outputNameValue = none
  optInput : d.optInput = none

/-- The slot a name is given when a list of names asks for slots one after the other: the number of distinct names
before its first mention. -/
def slotOf (names : List String) (n : String) : Option Nat :=
  if n ∈ names then some (distinctCount (names.takeWhile (· ≠ n))) else none

namespace CopyAux

/-! ## The slots asked for -/

theorem slotOf_concat (names : List String) (n m : String) :
    slotOf (names ++ [n]) m = if m = n ∧ n ∉ names then some (distinctCount names) else slotOf names m := by
  unfold slotOf
  by_cases hm : m ∈ names
  · have hnot : ¬ (m = n ∧ n ∉ names) := fun h => h.2 (h.1 ▸ hm)
    have htake : (names ++ [n]).takeWhile (· ≠ m) = names.takeWhile (· ≠ m) := by
      rw [takeWhile_append, if_neg]
      intro hlen
      have hall := takeWhile_eq_self_iff.mp ((List.takeWhile_prefix _).eq_of_length hlen)
      simpa using hall m hm
    rw [if_neg hnot, if_pos hm, if_pos (by simp [hm]), htake]
  · have hall : ∀ x ∈ names, decide (x ≠ m) = true := by
      intro x hx
      simpa using fun e : x = m => hm (e ▸ hx)
    by_cases hmn : m = n
    · subst hmn
      rw [if_pos (by simp), if_pos ⟨rfl, hm⟩, takeWhile_append_of_pos hall]
      simp
    · rw [if_neg (by simp [hm, hmn]), if_neg (fun h => hmn h.1), if_neg hm]

variable {op : OpDesc} {d : OpDef} {ν : Type}

/-- Reading one more name gives it the slot it asks for. -/
theorem read_slotOf {names : List String} (h : Restored names op)
    (hslot : ∀ m, op.subgraphNamesToIndex.find m = slotOf names m) (n : String) (m : String) :
    ((op.addSubgraphName n).2.setSubgraphInstanceName names.length n).2.subgraphNamesToIndex.find m =
      slotOf (names ++ [n]) m := by
  have hset : ∀ o : OpDesc, (o.setSubgraphInstanceName names.length n).2.subgraphNamesToIndex = o.subgraphNamesToIndex := by
    intro o
    unfold OpDesc.setSubgraphInstanceName
    split <;> rfl
  rw [hset, slotOf_concat, ← hslot m]
  by_cases hn : n ∈ names
  · rw [OpDesc.addSubgraphName, if_pos ((h.known n).mpr hn), if_neg fun e => e.2 hn]
  · have hin : op.subgraphNamesToIndex.contains n = false := by simpa using mt (h.known n).mp hn
    rw [OpDesc.addSubgraphName, if_neg (by simp [hin])]
    simp only [find_assign, h.count, hn, not_false_eq_true, and_true]

/-- The loop over the names gives each the slot it asks for. -/
theorem addSubgraphNames_slotOf : ∀ (rest names : List String) (op : OpDesc), Restored names op →
    (∀ m, op.subgraphNamesToIndex.find m = slotOf names m) → names.length + rest.length ≤ 2 ^ 32 →
    ∀ m, (addSubgraphNames rest (names.length % 2 ^ 32) op).subgraphNamesToIndex.find m = slotOf (names ++ rest) m := by
  intro rest
  induction rest with
  | nil => intro names op _ hslot _; simpa [addSubgraphNames] using hslot
  | cons n rest ih =>
    intro names op h hslot hle
    simp only [length_cons] at hle
    have hlt : names.length % 2 ^ 32 = names.length := Nat.mod_eq_of_lt (by omega)
    have hread := ih (names ++ [n]) _ (h.read n) (read_slotOf h hslot n)
      (by simp only [length_append, length_singleton]; omega)
    rw [append_assoc, singleton_append, length_append, length_singleton] at hread
    rw [addSubgraphNames, hlt]
    exact hread

/-- Loading gives each name of the message the slot it asks for. -/
theorem unserializeOpDesc_slotOf (h : d.subgraphName.length ≤ 2 ^ 32) (m : String) :
    (unserializeOpDesc d).subgraphNamesToIndex.find m = slotOf d.subgraphName m := by
  have hstart : Restored [] { opDef := { d with inputNameKey := none, inputNameValue := none, outputNameKey := none
                                                outputNameValue := none, optInput := none }
                              inputsDesc := d.inputDesc, outputsDesc := d.outputDesc } :=
    ⟨rfl, by simp [OrderedMap.contains], rfl⟩
  exact addSubgraphNames_slotOf d.subgraphName [] _ hstart (fun _ => rfl) (by simpa using h) m

/-! ## The names entered -/

theorem find_insertRange (n : String) : ∀ (l m : OrderedMap String ν), (insertRange m l).find n = (m.find n).or (l.find n)
  | [], m => by simp [insertRange, OrderedMap.find]
  | e :: l, m => by
    have hstep : (insertRange m (e :: l)).find n = ((m.insert e.1 e.2).find n).or (OrderedMap.find l n) :=
      find_insertRange n l (m.insert e.1 e.2)
    rw [hstep, find_insert, find_cons]
    by_cases hn : n = e.1
    · subst hn
      cases hm : m.find e.1 with
      | none => simp [OrderedMap.find_eq_none.mp hm]
      | some v =>
        have hin : m.contains e.1 = true := by
          by_contra hnot
          rw [Bool.not_eq_true, ← find_eq_none, hm] at hnot
          cases hnot
        simp [hin]
    · simp [hn]

/-- Whether a key has an entry is read from what it finds. -/
theorem contains_eq_isSome (m : OrderedMap String ν) (n : String) : m.contains n = (m.find n).isSome := by
  cases h : m.find n with
  | none => exact OrderedMap.find_eq_none.mp h
  | some v => exact OrderedMap.contains_iff.mpr ⟨v, mem_of_find h⟩

/-- A map none of whose keys finds anything is empty. -/
theorem eq_nil_of_find {m : OrderedMap String ν} (h : ∀ n, m.find n = none) : m = [] := by
  cases m with
  | nil => rfl
  | cons e m =>
    have hself := h e.1
    rw [find_cons, if_pos rfl] at hself
    cases hself

/-- The names and the values of a map, entered one by one, give the range. -/
theorem insertNames_map (m l : OrderedMap String Nat) : insertNames m (l.map Prod.fst) (l.map Prod.snd) = insertRange m l := by
  rw [insertNames, if_pos (by simp), zip_map']
  simp [insertRange]

/-! ## What was read back -/

theorem addSubgraphNames_nameIdx (names : List String) : ∀ (i : Nat) (op : OpDesc),
    (addSubgraphNames names i op).inputNameIdx = op.inputNameIdx ∧
      (addSubgraphNames names i op).outputNameIdx = op.outputNameIdx ∧
      (addSubgraphNames names i op).optionalInputNames = op.optionalInputNames := by
  induction names with
  | nil => exact fun _ _ => ⟨rfl, rfl, rfl⟩
  | cons name names ih =>
    intro i op
    obtain ⟨hin, hout, hopt⟩ := ih ((i + 1) % 2 ^ 32) ((op.addSubgraphName name).2.setSubgraphInstanceName i name).2
    rw [addSubgraphNames, hin, hout, hopt]
    simp only [OpDesc.setSubgraphInstanceName, OpDesc.addSubgraphName]
    repeat' split
    all_goals exact ⟨rfl, rfl, rfl⟩

/-- A descriptor read back has the fields of its message, in which the attributes of the names are erased, and the names
those attributes held. -/
theorem unserializeOpDesc_frame (d : OpDef) :
    ((unserializeOpDesc d).opDef = { d with inputNameKey := none, inputNameValue := none, outputNameKey := none,
                                            outputNameValue := none, optInput := none } ∧
      (unserializeOpDesc d).inputsDesc = d.inputDesc ∧ (unserializeOpDesc d).outputsDesc = d.outputDesc) ∧
    (unserializeOpDesc d).inputNameIdx = insertNames [] (d.inputNameKey.getD []) (d.inputNameValue.getD []) ∧
      (unserializeOpDesc d).outputNameIdx = insertNames [] (d.outputNameKey.getD []) (d.outputNameValue.getD []) ∧
      (unserializeOpDesc d).optionalInputNames = (d.optInput.getD []).foldl (fun m n => OrderedMap.insert m n ()) [] := by
  unfold unserializeOpDesc attrDefToOpDesc
  dsimp only
  obtain ⟨hin, hout, hdef⟩ := LoadingAux.addSubgraphNames_descs d.subgraphName 0
    { opDef := { d with inputNameKey := none, inputNameValue := none, outputNameKey := none, outputNameValue := none
                        optInput := none }
      inputsDesc := d.inputDesc, outputsDesc := d.outputDesc }
  obtain ⟨hinIdx, houtIdx, hopt⟩ := addSubgraphNames_nameIdx d.subgraphName 0
    { opDef := { d with inputNameKey := none, inputNameValue := none, outputNameKey := none, outputNameValue := none
                        optInput := none }
      inputsDesc := d.inputDesc, outputsDesc := d.outputDesc }
  rw [hin, hout, hdef, hinIdx, houtIdx, hopt]
  exact ⟨⟨rfl, rfl, rfl⟩, rfl, rfl, rfl⟩

/-- Written over a message that carries no names, the attributes hold those of the descriptor. -/
theorem opDescToAttrDef_names (op : OpDesc) (hd : d.NoNames) :
    (opDescToAttrDef op d).inputNameKey.getD [] = op.inputNameIdx.map Prod.fst ∧
      (opDescToAttrDef op d).inputNameValue.getD [] = op.inputNameIdx.map Prod.snd ∧
      (opDescToAttrDef op d).outputNameKey.getD [] = op.outputNameIdx.map Prod.fst ∧
      (opDescToAttrDef op d).outputNameValue.getD [] = op.outputNameIdx.map Prod.snd ∧
      (opDescToAttrDef op d).optInput.getD [] = op.optionalInputNames.map Prod.fst := by
  obtain ⟨hik, hiv, hok, hov, hopt⟩ := hd
  simp only [opDescToAttrDef]
  repeat' split
  all_goals simp_all [insertAttr]

/-- Writing the names leaves the other fields of the message. -/
theorem opDescToAttrDef_frame (op : OpDesc) (d : OpDef) :
    (opDescToAttrDef op d).name = d.name ∧ (opDescToAttrDef op d).type = d.type ∧ (opDescToAttrDef op d).id = d.id ∧
      (opDescToAttrDef op d).inputDesc = d.inputDesc ∧ (opDescToAttrDef op d).outputDesc = d.outputDesc ∧
      (opDescToAttrDef op d).subgraphName = d.subgraphName ∧ (opDescToAttrDef op d).aliasName = d.aliasName := by
  simp only [opDescToAttrDef]
  repeat' split
  all_goals exact ⟨rfl, rfl, rfl, rfl, rfl, rfl, rfl⟩

/-! ## The copy -/

/-- What the copy of a descriptor has of the original. -/
structure Copied (op copy : OpDesc) : Prop where
  name : copy.getName = op.getName
  type : copy.getType = op.getType
  id : copy.getId = op.getId
  inputsDesc : copy.inputsDesc = op.inputsDesc
  outputsDesc : copy.outputsDesc = op.outputsDesc
  aliasName : copy.opDef.aliasName = op.opDef.aliasName
  noNames : copy.opDef.NoNames
  slots : copy.subgraphInstanceNames = restored (op.opDef.subgraphName ++ op.subgraphInstanceNames)
  index : ∀ n, copy.subgraphNamesToIndex.find n = slotOf (op.opDef.subgraphName ++ op.subgraphInstanceNames) n
  inputNameIdx : op.opDef.NoNames → ∀ n, copy.inputNameIdx.find n = op.inputNameIdx.find n
  outputNameIdx : op.opDef.NoNames → ∀ n, copy.outputNameIdx.find n = op.outputNameIdx.find n
  optionalInputNames : op.opDef.NoNames → ∀ n, copy.optionalInputNames.find n = op.optionalInputNames.find n

/-- Names that were read back from their own range and are entered again find what they found. -/
theorem find_insertRange_twice (l : OrderedMap String ν) (n : String) : (insertRange (insertRange [] l) l).find n = l.find n := by
  rw [find_insertRange, find_insertRange]
  cases OrderedMap.find l n <;> rfl

/-- The message written has the fields of the descriptor, and its names where the message carried none. -/
theorem serializeOpDesc_spec (op : OpDesc)
    (hfit : op.opDef.subgraphName.length + op.subgraphInstanceNames.length ≤ repeatedFieldMax) :
    ∃ d, serializeOpDesc op = some d ∧
      (d.name = op.opDef.name ∧ d.type = op.opDef.type ∧ d.id = op.opDef.id ∧ d.inputDesc = op.inputsDesc ∧
        d.outputDesc = op.outputsDesc ∧ d.subgraphName = op.opDef.subgraphName ++ op.subgraphInstanceNames ∧
        d.aliasName = op.opDef.aliasName) ∧
      (op.opDef.NoNames →
        d.inputNameKey.getD [] = op.inputNameIdx.map Prod.fst ∧ d.inputNameValue.getD [] = op.inputNameIdx.map Prod.snd ∧
          d.outputNameKey.getD [] = op.outputNameIdx.map Prod.fst ∧
          d.outputNameValue.getD [] = op.outputNameIdx.map Prod.snd ∧
          d.optInput.getD [] = op.optionalInputNames.map Prod.fst) := by
  have hle : ¬ repeatedFieldMax < (op.opDef.subgraphName ++ op.subgraphInstanceNames).length := by
    rw [length_append]
    omega
  refine ⟨_, if_neg hle, opDescToAttrDef_frame op _, fun h => opDescToAttrDef_names op ?_⟩
  exact ⟨h.inputNameKey, h.inputNameValue, h.outputNameKey, h.outputNameValue, h.optInput⟩

/-- The names fit the message: the copy is made. -/
theorem copyNames_spec (op : OpDesc) (hfit : op.opDef.subgraphName.length + op.subgraphInstanceNames.length ≤ repeatedFieldMax) :
    ∃ copy, copyNames op = some copy ∧ Copied op copy := by
  obtain ⟨d, hser, ⟨hname, htype, hid, hin, hout, hsub, halias⟩, hnames⟩ := serializeOpDesc_spec op hfit
  obtain ⟨⟨hdef, hins, houts⟩, hinIdx, houtIdx, hopt⟩ := unserializeOpDesc_frame d
  have hlen : d.subgraphName.length ≤ 2 ^ 32 := by
    rw [hsub, length_append]
    exact hfit.trans (by decide)
  refine ⟨_, by rw [copyNames, hser]; rfl, ?_⟩
  constructor
  case name => exact (congrArg OpDef.name hdef).trans hname
  case type => exact (congrArg OpDef.type hdef).trans htype
  case id => exact (congrArg OpDef.id hdef).trans hid
  case inputsDesc => exact hins.trans hin
  case outputsDesc => exact houts.trans hout
  case aliasName => exact (congrArg OpDef.aliasName hdef).trans halias
  case noNames => simp only [hdef]; exact ⟨rfl, rfl, rfl, rfl, rfl⟩
  case slots => rw [← hsub]; exact unserializeOpDesc_slots hlen
  case index => rw [← hsub]; exact unserializeOpDesc_slotOf hlen
  case inputNameIdx =>
    intro h n
    obtain ⟨hkey, hvalue, -⟩ := hnames h
    simp only [hinIdx, hkey, hvalue, insertNames_map, find_insertRange_twice]
  case outputNameIdx =>
    intro h n
    obtain ⟨-, -, hkey, hvalue, -⟩ := hnames h
    simp only [houtIdx, hkey, hvalue, insertNames_map, find_insertRange_twice]
  case optionalInputNames =>
    intro h n
    obtain ⟨-, -, -, -, hkey⟩ := hnames h
    simp only [hopt, hkey, foldl_map]
    exact find_insertRange_twice op.optionalInputNames n

/-- A copy is only made when the names fit the message. -/
theorem copyNames_fits {copy : OpDesc} (h : copyNames op = some copy) :
    op.opDef.subgraphName.length + op.subgraphInstanceNames.length ≤ repeatedFieldMax := by
  rw [← length_append]
  by_contra hle
  rw [copyNames, serializeOpDesc, if_pos (Nat.lt_of_not_le hle)] at h
  cases h

end CopyAux

end Metadef
