import Mathlib.Data.List.Range
import Metadef.Lib.OrderedMap

/-! # Names of positions

A map of names to the positions of a list. It indexes the list when its names lead to all positions, each once. Appending an
item under a new name keeps it so, and so does putting one in the middle when the positions behind it move up. -/

namespace Metadef

open List OrderedMap

namespace Positions

variable {κ : Type} [DecidableEq κ] [LT κ] [DecidableLT κ]

omit [DecidableEq κ] [LT κ] [DecidableLT κ] in
/-- Moves the positions from one on up by one. -/
def shiftFrom (m : OrderedMap κ Nat) (position : Nat) : OrderedMap κ Nat :=
  m.map fun e => if position ≤ e.2 then (e.1, e.2 + 1) else e

/-- The names are distinct and lead to the positions below a length, each once. -/
structure Indexes (m : OrderedMap κ Nat) (length : Nat) : Prop where
  keys : (m.map Prod.fst).Nodup
  positions : (m.map Prod.snd).Perm (List.range length)

omit [LT κ] [DecidableLT κ] in
instance (m : OrderedMap κ Nat) (length : Nat) : Decidable (Indexes m length) :=
  decidable_of_iff ((m.map Prod.fst).Nodup ∧ (m.map Prod.snd).Perm (List.range length)) ⟨fun h => ⟨h.1, h.2⟩, fun h => ⟨h.1, h.2⟩⟩

variable {m : OrderedMap κ Nat} {n p : Nat} {k : κ}

omit [DecidableEq κ] [LT κ] [DecidableLT κ] in
theorem indexes_nil : Indexes ([] : OrderedMap κ Nat) 0 := ⟨nodup_nil, .nil⟩

omit [DecidableEq κ] [LT κ] [DecidableLT κ] in
/-- A list of another length has other names. -/
theorem Indexes.length_eq (hi : Indexes m n) : m.length = n := by
  simpa using hi.positions.length_eq

omit [LT κ] [DecidableLT κ] in
/-- The position a name leads to is one of the list. -/
theorem Indexes.lt (hi : Indexes m n) (hf : m.find k = some p) : p < n := by
  have hmem : (k, p) ∈ m := mem_of_find hf
  exact mem_range.mp (hi.positions.mem_iff.mp (List.mem_map.mpr ⟨_, hmem, rfl⟩))

/-- An item appended under a new name. -/
theorem Indexes.push (hi : Indexes m n) (hk : m.contains k = false) : Indexes (m.insert k n) (n + 1) := by
  refine ⟨nodup_keys_insert hi.keys k n, ?_⟩
  have hinsert : m.insert k n = OrderedMap.place k n m := by simp [OrderedMap.insert, hk]
  have hplace := (place_perm k n m).map Prod.snd
  rw [hinsert, range_succ]
  exact (hplace.trans (hi.positions.cons n)).trans (perm_append_singleton n _).symm

omit [DecidableEq κ] [LT κ] [DecidableLT κ] in
/-- As many names as positions index them when no position is left out. -/
theorem indexes_iff_covers (hkeys : (m.map Prod.fst).Nodup) (hlen : m.length = n) : Indexes m n ↔ ∀ i < n, i ∈ m.map Prod.snd := by
  constructor
  · intro hi i hlt
    exact hi.positions.mem_iff.mpr (mem_range.mpr hlt)
  · intro hcov
    have hsub : List.range n ⊆ m.map Prod.snd := fun i hi => hcov i (mem_range.mp hi)
    have hperm : (List.range n).Perm (m.map Prod.snd) :=
      (nodup_range.subperm hsub).perm_of_length_le (by simp [hlen])
    exact ⟨hkeys, hperm.symm⟩

omit [DecidableEq κ] [LT κ] [DecidableLT κ] in
theorem shiftFrom_keys (m : OrderedMap κ Nat) (p : Nat) : (shiftFrom m p).map Prod.fst = m.map Prod.fst := by
  rw [shiftFrom, map_map]
  refine map_congr_left fun e _ => ?_
  simp only [Function.comp_apply]
  split <;> rfl

omit [DecidableEq κ] [LT κ] [DecidableLT κ] in
/-- The positions below a length without one in the middle are the smaller ones and, moved up, the others. -/
theorem shiftFrom_positions (hp : p ≤ n) (hm : (m.map Prod.snd).Perm (List.range n)) :
    (p :: (shiftFrom m p).map Prod.snd).Perm (List.range (n + 1)) := by
  have hmap : (shiftFrom m p).map Prod.snd = (m.map Prod.snd).map fun i => if p ≤ i then i + 1 else i := by
    rw [shiftFrom, map_map, map_map]
    refine map_congr_left fun e _ => ?_
    simp only [Function.comp_apply]
    split <;> rfl
  rw [hmap]
  have hnodup : (p :: (m.map Prod.snd).map fun i => if p ≤ i then i + 1 else i).Nodup := by
    refine nodup_cons.mpr ⟨fun hmem => ?_, (hm.nodup_iff.mpr nodup_range).map fun i j hij => ?_⟩
    · obtain ⟨i, -, hi⟩ := List.mem_map.mp hmem
      split at hi <;> omega
    · split at hij <;> split at hij <;> omega
  refine (perm_ext_iff_of_nodup hnodup nodup_range).mpr fun i => ?_
  rw [mem_cons, mem_range, List.mem_map]
  constructor
  · rintro (rfl | ⟨j, hj, rfl⟩)
    · omega
    · have hlt := mem_range.mp (hm.mem_iff.mp hj)
      split <;> omega
  · intro hlt
    rcases Nat.lt_trichotomy i p with hip | hip | hip
    · exact .inr ⟨i, hm.mem_iff.mpr (mem_range.mpr (by omega)), if_neg (by omega)⟩
    · exact .inl hip
    · refine .inr ⟨i - 1, hm.mem_iff.mpr (mem_range.mpr (by omega)), ?_⟩
      rw [if_pos (by omega)]
      omega

/-- An item put in the middle under a new name. -/
theorem Indexes.insert (hi : Indexes m n) (hp : p ≤ n) (hk : m.contains k = false) :
    Indexes ((shiftFrom m p).insert k p) (n + 1) := by
  have hkeys := shiftFrom_keys m p
  have hk' : (shiftFrom m p).contains k = false := by
    rw [not_contains_iff, hkeys]
    exact OrderedMap.not_contains_iff.mp hk
  refine ⟨nodup_keys_insert (hkeys.symm ▸ hi.keys) k p, ?_⟩
  have hinsert : (shiftFrom m p).insert k p = OrderedMap.place k p (shiftFrom m p) := by simp [OrderedMap.insert, hk']
  have hplace := (place_perm k p (shiftFrom m p)).map Prod.snd
  rw [hinsert]
  exact hplace.trans (shiftFrom_positions hp hi.positions)

/-! ## Lookups -/

omit [LT κ] [DecidableLT κ] in
theorem find_shiftFrom (m : OrderedMap κ Nat) (p : Nat) (k : κ) :
    (shiftFrom m p).find k = (m.find k).map fun v => if p ≤ v then v + 1 else v := by
  induction m with
  | nil => rfl
  | cons e m ih =>
    have hcons : shiftFrom (e :: m) p = (e.1, if p ≤ e.2 then e.2 + 1 else e.2) :: shiftFrom m p := by
      rw [shiftFrom, map_cons]
      by_cases hle : p ≤ e.2
      · rw [if_pos hle, if_pos hle]
        rfl
      · rw [if_neg hle, if_neg hle]
        rfl
    rw [hcons, find_cons, find_cons, ih]
    by_cases hk : k = e.1
    · rw [if_pos hk, if_pos hk]
      rfl
    · rw [if_neg hk, if_neg hk]

/-- The positions behind a new name move up. -/
theorem find_insert_shiftFrom (hk : m.contains k = false) (k' : κ) :
    ((shiftFrom m p).insert k p).find k' = if k' = k then some p else (m.find k').map fun v => if p ≤ v then v + 1 else v := by
  have hk' : (shiftFrom m p).contains k = false := by
    rw [not_contains_iff, shiftFrom_keys]
    exact OrderedMap.not_contains_iff.mp hk
  rw [find_insert, find_shiftFrom]
  simp only [hk', and_true]

end Positions

end Metadef
