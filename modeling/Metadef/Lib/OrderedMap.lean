import Mathlib.Data.List.Nodup
import Mathlib.Data.List.Perm.Subperm
import Mathlib.Order.Lattice

/-! # Ordered maps

The ordered map of the standard library, as the list of its entries in key order: lookup, insertion that leaves an
entry that is there, assignment that replaces it, and erasure. A list of values can be entered under keys of their own, each key
once as in a map or as often as it comes as in a multimap. -/

namespace Metadef

open List

/-- The entries of a map, in the order of their keys. -/
abbrev OrderedMap (κ ν : Type) := List (κ × ν)

namespace OrderedMap

variable {κ ν : Type} [DecidableEq κ] [LT κ] [DecidableLT κ]

/-- The value at a key. -/
def find (m : OrderedMap κ ν) (k : κ) : Option ν := List.lookup k m

/-- Whether a key has an entry. -/
def contains (m : OrderedMap κ ν) (k : κ) : Bool := m.any fun e => e.1 = k

/-- Inserts an entry at its place in the key order. -/
def place (k : κ) (v : ν) : OrderedMap κ ν → OrderedMap κ ν
  | [] => [(k, v)]
  | e :: m => if k < e.1 then (k, v) :: e :: m else e :: place k v m

/-- `insert`: adds an entry unless the key has one. -/
def insert (m : OrderedMap κ ν) (k : κ) (v : ν) : OrderedMap κ ν := if m.contains k then m else place k v m

/-- `operator[]` assigned: adds an entry or replaces the value of the one that is there. -/
def assign (m : OrderedMap κ ν) (k : κ) (v : ν) : OrderedMap κ ν :=
  if m.contains k then m.map fun e => if e.1 = k then (k, v) else e else place k v m

omit [DecidableEq κ] in
/-- Placing an entry adds one. -/
@[simp] theorem length_place (k : κ) (v : ν) (m : OrderedMap κ ν) : (place k v m).length = m.length + 1 := by
  induction m with
  | nil => rfl
  | cons e m ih => simp only [place]; split <;> simp [ih]

variable {k k' : κ} {v : ν} {m : OrderedMap κ ν} {e : κ × ν} {key : ν → κ} {l : List ν}

omit [DecidableEq κ] in
/-- The entries after placing one are the old ones and it. -/
theorem mem_place : e ∈ place k v m ↔ e = (k, v) ∨ e ∈ m := by
  induction m with
  | nil => simp [place]
  | cons d m ih =>
    simp only [place]
    split
    · simp
    · simp only [mem_cons, ih]
      constructor
      · rintro (h | h | h) <;> simp [h]
      · rintro (h | h | h) <;> simp [h]

omit [LT κ] [DecidableLT κ] in
/-- A key is contained when some entry has it. -/
theorem contains_iff : m.contains k = true ↔ ∃ v, (k, v) ∈ m := by
  simp only [contains, any_eq_true, decide_eq_true_eq]
  constructor
  · rintro ⟨⟨k', v⟩, he, rfl⟩
    exact ⟨v, he⟩
  · rintro ⟨v, hv⟩
    exact ⟨(k, v), hv, rfl⟩

/-! ## Lookups -/

omit [LT κ] [DecidableLT κ] in
theorem mem_of_find (h : m.find k = some v) : (k, v) ∈ m := by
  obtain ⟨l, r, rfl, -⟩ := lookup_eq_some_iff.mp h
  simp

omit [LT κ] [DecidableLT κ] in
theorem find_cons (e : κ × ν) (m : OrderedMap κ ν) (k : κ) :
    OrderedMap.find (e :: m) k = if k = e.1 then some e.2 else m.find k := by
  obtain ⟨k', v⟩ := e
  unfold find
  rw [lookup_cons]
  by_cases hk : k = k'
  · simp [hk]
  · have hbeq : (k == k') = false := by simpa using hk
    simp [hbeq, hk]

omit [LT κ] [DecidableLT κ] in
theorem find_eq_none : m.find k = none ↔ m.contains k = false := by
  induction m with
  | nil => simp [find, contains]
  | cons e m ih =>
    rw [find_cons]
    by_cases hk : k = e.1
    · simp [hk, contains]
    · have hk' : ¬ e.1 = k := fun h => hk h.symm
      simpa [hk, hk', contains] using ih

omit [LT κ] [DecidableLT κ] in
theorem find_of_contains (h : m.contains k = true) : ∃ v, m.find k = some v :=
  Option.ne_none_iff_exists'.mp fun hnone => by simp [find_eq_none.mp hnone] at h

/-- Placing an entry of a new key changes what that key finds. -/
theorem find_place (h : m.contains k = false) : (place k v m).find k' = if k' = k then some v else m.find k' := by
  induction m with
  | nil =>
    rw [place, find_cons]
  | cons e m ih =>
    have hk : ¬ e.1 = k ∧ contains m k = false := by simpa [contains] using h
    unfold place
    split
    · rw [find_cons]
    · rw [find_cons, find_cons, ih hk.2]
      by_cases hk' : k' = e.1
      · have hne : ¬ k' = k := fun h => hk.1 (hk'.symm.trans h)
        simp only [if_pos hk', if_neg hne]
      · simp only [if_neg hk']

/-- Inserting changes what a new key finds. -/
theorem find_insert (m : OrderedMap κ ν) (k k' : κ) (v : ν) :
    (m.insert k v).find k' = if k' = k ∧ m.contains k = false then some v else m.find k' := by
  unfold insert
  cases h : m.contains k with
  | true => simp
  | false => simp [find_place h]

/-- The keys after an insertion are the old ones and the inserted one. -/
theorem contains_insert (m : OrderedMap κ ν) (k k' : κ) (v : ν) :
    (m.insert k v).contains k' = (decide (k' = k) || m.contains k') := by
  unfold insert
  cases hk : m.contains k with
  | true =>
    by_cases hkk : k' = k
    · simp [hkk, hk]
    · simp [hkk]
  | false =>
    rw [if_neg Bool.false_ne_true, Bool.eq_iff_iff, Bool.or_eq_true, decide_eq_true_eq]
    simp only [contains_iff, mem_place, Prod.mk.injEq]
    constructor
    · rintro ⟨w, ⟨rfl, rfl⟩ | hw⟩
      · exact .inl rfl
      · exact .inr ⟨w, hw⟩
    · rintro (rfl | ⟨w, hw⟩)
      · exact ⟨v, .inl ⟨rfl, rfl⟩⟩
      · exact ⟨w, .inr hw⟩

omit [LT κ] [DecidableLT κ] in
/-- Replacing the values of a key changes what that key finds, where it finds something. -/
theorem find_replace (m : OrderedMap κ ν) (k k' : κ) (v : ν) : OrderedMap.find (m.map fun e => if e.1 = k then (k, v) else e) k' =
      if k' = k then (m.find k).map fun _ => v else m.find k' := by
  induction m with
  | nil => simp [find]
  | cons e m ih =>
    rw [map_cons, find_cons, ih]
    by_cases he : e.1 = k
    · by_cases hk : k' = k
      · simp [he, hk, find_cons]
      · simp [he, hk, find_cons]
    · by_cases hk : k' = k
      · have hke : ¬ k = e.1 := fun h => he h.symm
        simp [he, hk, hke, find_cons]
      · simp [he, hk, find_cons]

/-- Assigning changes what the key finds. -/
theorem find_assign (m : OrderedMap κ ν) (k k' : κ) (v : ν) : (m.assign k v).find k' = if k' = k then some v else m.find k' := by
  unfold assign
  cases h : m.contains k with
  | false => simp [find_place h]
  | true =>
    obtain ⟨w, hw⟩ : ∃ w, m.find k = some w := by
      cases hf : m.find k with
      | none => simp [find_eq_none.mp hf] at h
      | some w => exact ⟨w, rfl⟩
    rw [if_pos rfl, find_replace, hw]
    rfl

/-- `erase`: takes the entry of a key away. -/
def erase (m : OrderedMap κ ν) (k : κ) : OrderedMap κ ν := m.filter fun e => e.1 ≠ k

omit [LT κ] [DecidableLT κ] in
/-- Erasing changes what the key finds. -/
theorem find_erase (m : OrderedMap κ ν) (k k' : κ) : (m.erase k).find k' = if k' = k then none else m.find k' := by
  induction m with
  | nil => simp [erase, find]
  | cons e m ih =>
    have hstep : erase (e :: m) k = if e.1 = k then erase m k else e :: erase m k := by
      by_cases he : e.1 = k <;> simp [erase, he]
    rw [hstep, find_cons]
    by_cases he : e.1 = k
    · rw [if_pos he, ih]
      by_cases hk : k' = k
      · simp [hk]
      · have hke : ¬ k' = e.1 := fun h => hk (h.trans he)
        simp [hk, hke]
    · rw [if_neg he, find_cons, ih]
      by_cases hk : k' = k
      · have hke : ¬ k' = e.1 := fun h => he (h.symm.trans hk)
        rw [if_neg hke, if_pos hk, if_pos hk]
      · rw [if_neg hk, if_neg hk]

/-- Assigning at a new key adds one entry. -/
theorem length_assign_of_new (h : m.contains k = false) (v : ν) : (m.assign k v).length = m.length + 1 := by
  simp [assign, h]

/-- At a new key an assignment is an insertion. -/
theorem assign_of_new (h : m.contains k = false) (v : ν) : m.assign k v = m.insert k v := by simp [assign, insert, h]

/-- The keys after an assignment are the old ones and the assigned one. -/
theorem contains_assign (h : m.contains k = false) : (m.assign k v).contains k' = true ↔ k' = k ∨ m.contains k' = true := by
  rw [assign_of_new h, contains_insert, Bool.or_eq_true, decide_eq_true_eq]

/-! ## Entering a list of values -/

/-- Inserts values under keys of their own: of the values of one key the first stays. -/
def insertAll (key : ν → κ) (m : OrderedMap κ ν) (l : List ν) : OrderedMap κ ν := l.foldl (fun m v => m.insert (key v) v) m

omit [DecidableEq κ] in
/-- Places values under keys of their own, as a multimap does. -/
def placeAll (key : ν → κ) (m : OrderedMap κ ν) (l : List ν) : OrderedMap κ ν := l.foldl (fun m v => place (key v) v m) m

omit [DecidableEq κ] in
theorem place_perm (k : κ) (v : ν) (m : OrderedMap κ ν) : (place k v m).Perm ((k, v) :: m) := by
  induction m with
  | nil => exact .refl _
  | cons e m ih =>
    unfold place
    split
    · exact .refl _
    · exact (ih.cons e).trans (.swap (k, v) e m)

omit [DecidableEq κ] in
/-- A multimap loses no value. -/
theorem placeAll_perm (key : ν → κ) (l : List ν) (m : OrderedMap κ ν) :
    ((placeAll key m l).map Prod.snd).Perm (m.map Prod.snd ++ l) := by
  induction l generalizing m with
  | nil => simp [placeAll]
  | cons v l ih =>
    have hplace := (place_perm (key v) v m).map Prod.snd
    calc ((placeAll key m (v :: l)).map Prod.snd).Perm ((place (key v) v m).map Prod.snd ++ l) := ih _
      _ |>.Perm (v :: m.map Prod.snd ++ l) := hplace.append_right l
      _ |>.Perm (m.map Prod.snd ++ v :: l) := perm_middle.symm

/-- The values of a map are of those entered. -/
theorem insertAll_subperm (key : ν → κ) (l : List ν) (m : OrderedMap κ ν) :
    ((insertAll key m l).map Prod.snd).Subperm (m.map Prod.snd ++ l) := by
  induction l generalizing m with
  | nil =>
    rw [append_nil]
    exact List.Subperm.refl _
  | cons v l ih =>
    have hstep : ((m.insert (key v) v).map Prod.snd).Subperm (m.map Prod.snd ++ [v]) := by
      unfold insert
      split
      · exact (sublist_append_left _ _).subperm
      · have hplace := (place_perm (key v) v m).map Prod.snd
        exact (hplace.trans (perm_append_singleton v _).symm).subperm
    have hrest := (ih (m.insert (key v) v)).trans ((subperm_append_right l).mpr hstep)
    simpa [insertAll] using hrest

omit [LT κ] [DecidableLT κ] in
theorem not_contains_iff : m.contains k = false ↔ k ∉ m.map Prod.fst := by
  rw [← Bool.not_eq_true, contains_iff]
  simp

/-- Where no key repeats, a map enters values as a multimap does. -/
theorem insertAll_eq_placeAll :
    ∀ {m : OrderedMap κ ν}, (m.map Prod.fst ++ l.map key).Nodup → insertAll key m l = placeAll key m l := by
  induction l with
  | nil => intros; rfl
  | cons v l ih =>
    intro m hnodup
    have hnew : m.contains (key v) = false := by
      refine not_contains_iff.mpr fun hin => ?_
      exact (nodup_append.mp hnodup).2.2 _ hin _ (by simp) rfl
    have hkeys : ((place (key v) v m).map Prod.fst ++ l.map key).Nodup := by
      have hperm : ((place (key v) v m).map Prod.fst ++ l.map key).Perm (m.map Prod.fst ++ (v :: l).map key) := by
        refine (((place_perm (key v) v m).map Prod.fst).append_right _).trans ?_
        rw [map_cons, map_cons, cons_append]
        exact perm_middle.symm
      exact hperm.nodup_iff.mpr hnodup
    have hinsert : m.insert (key v) v = place (key v) v m := by simp [insert, hnew]
    unfold insertAll placeAll at ih ⊢
    rw [foldl_cons, foldl_cons, hinsert]
    exact ih hkeys

/-- The keys stay distinct when an entry is inserted. -/
theorem nodup_keys_insert (h : (m.map Prod.fst).Nodup) (k : κ) (v : ν) : ((m.insert k v).map Prod.fst).Nodup := by
  unfold insert
  split
  · exact h
  · rename_i hnew
    rw [((place_perm k v m).map Prod.fst).nodup_iff, map_cons]
    exact nodup_cons.mpr ⟨not_contains_iff.mp (Bool.not_eq_true _ ▸ hnew), h⟩

/-- The keys stay distinct when an entry is assigned. -/
theorem nodup_keys_assign (h : (m.map Prod.fst).Nodup) (k : κ) (v : ν) : ((m.assign k v).map Prod.fst).Nodup := by
  unfold assign
  split
  · have hkeys : (m.map fun e => if e.1 = k then (k, v) else e).map Prod.fst = m.map Prod.fst := by
      rw [map_map]
      refine map_congr_left fun e _ => ?_
      by_cases he : e.1 = k
      · simp [he]
      · simp [he]
    rwa [hkeys]
  · rename_i hnew
    simpa [insert, hnew] using nodup_keys_insert h k v

theorem mem_of_mem_assign (h : e ∈ m.assign k v) : e = (k, v) ∨ e ∈ m := by
  unfold assign at h
  split at h
  · obtain ⟨d, hd, rfl⟩ := List.mem_map.mp h
    by_cases hk : d.1 = k
    · exact .inl (if_pos hk)
    · exact .inr ((if_neg hk).symm ▸ hd)
  · exact mem_place.mp h

omit [LT κ] [DecidableLT κ] in
/-- Where keys are distinct, an entry is what its key finds. -/
theorem find_of_mem (h : (m.map Prod.fst).Nodup) (he : e ∈ m) : m.find e.1 = some e.2 := by
  induction m with
  | nil => cases he
  | cons d m ih =>
    rw [map_cons, nodup_cons] at h
    rw [find_cons]
    rcases mem_cons.mp he with rfl | he
    · rw [if_pos rfl]
    · have hne : e.1 ≠ d.1 := fun hed => h.1 (hed ▸ mem_map_of_mem he)
      rw [if_neg hne, ih h.2 he]

theorem mem_of_mem_insert (h : e ∈ m.insert k v) : e = (k, v) ∨ e ∈ m := by
  unfold insert at h
  split at h
  · exact .inr h
  · exact mem_place.mp h

/-- The keys of a map are distinct, and are those of its values, however values are entered. -/
theorem insertAll_keys (key : ν → κ) (l : List ν) : ∀ {m : OrderedMap κ ν}, (m.map Prod.fst).Nodup → (∀ e ∈ m, e.1 = key e.2) →
      ((insertAll key m l).map Prod.fst).Nodup ∧ ∀ e ∈ insertAll key m l, e.1 = key e.2 := by
  induction l with
  | nil => exact fun h h' => ⟨h, h'⟩
  | cons v l ih =>
    intro m hnodup hkey
    refine ih (nodup_keys_insert hnodup (key v) v) fun e he => ?_
    rcases mem_of_mem_insert he with rfl | he
    · rfl
    · exact hkey e he

/-- Where a key repeats among distinct values, a map loses one of them. -/
theorem exists_not_mem_insertAll (hl : l.Nodup) (hkeys : ¬ (l.map key).Nodup) :
    ∃ v ∈ l, v ∉ (insertAll key [] l).map Prod.snd := by
  by_contra hall
  simp only [not_exists, not_and, not_not] at hall
  obtain ⟨hnodup, hkey⟩ := insertAll_keys key l (m := []) nodup_nil (by simp)
  refine hkeys ((nodup_map_iff_inj_on hl).mpr fun v hv w hw hvw => ?_)
  obtain ⟨e, he, rfl⟩ := List.mem_map.mp (hall v hv)
  obtain ⟨d, hd, rfl⟩ := List.mem_map.mp (hall w hw)
  have hed : e.1 = d.1 := (hkey e he).trans (hvw.trans (hkey d hd).symm)
  exact congrArg Prod.snd (inj_on_of_nodup_map hnodup he hd hed)

/-! ## Entries in key order -/

section Sorted

variable {κ ν : Type} [LinearOrder κ] {m : OrderedMap κ ν} {k : κ} {v : ν}

/-- An entry placed under a new key keeps the order. -/
theorem sorted_place (hs : m.Pairwise fun d e => d.1 < e.1) (hk : m.contains k = false) :
    (place k v m).Pairwise fun d e => d.1 < e.1 := by
  induction m with
  | nil => exact pairwise_singleton _ _
  | cons e m ih =>
    obtain ⟨he, hm⟩ := pairwise_cons.mp hs
    rw [not_contains_iff, map_cons, mem_cons, not_or] at hk
    rw [place]
    split
    · rename_i hlt
      refine pairwise_cons.mpr ⟨fun d hd => ?_, hs⟩
      rcases mem_cons.mp hd with rfl | hd
      · exact hlt
      · exact lt_trans hlt (he d hd)
    · rename_i hge
      have hlt : e.1 < k := lt_of_le_of_ne (not_lt.mp hge) (Ne.symm hk.1)
      refine pairwise_cons.mpr ⟨fun d hd => ?_, ih hm (not_contains_iff.mpr hk.2)⟩
      rcases mem_place.mp hd with rfl | hd
      · exact hlt
      · exact he d hd

/-- So does one inserted. -/
theorem sorted_insert (hs : m.Pairwise fun d e => d.1 < e.1) (k : κ) (v : ν) : (m.insert k v).Pairwise fun d e => d.1 < e.1 := by
  unfold insert
  split
  · exact hs
  · rename_i hk
    exact sorted_place hs (by simpa using hk)

/-- The keys stand in their order, however values are entered. -/
theorem sorted_insertAll (key : ν → κ) (l : List ν) :
    ∀ {m : OrderedMap κ ν}, (m.Pairwise fun d e => d.1 < e.1) → (insertAll key m l).Pairwise fun d e => d.1 < e.1 := by
  induction l with
  | nil => exact fun h => h
  | cons v l ih => exact fun hm => ih (sorted_insert hm (key v) v)

/-- Values of distinct keys are all entered. -/
theorem insertAll_entries {key : ν → κ} {l : List ν} (hkeys : (l.map key).Nodup) :
    (insertAll key [] l).Perm (l.map fun v => (key v, v)) := by
  rw [insertAll_eq_placeAll (by simpa using hkeys)]
  have hplace : ∀ (l : List ν) (m : OrderedMap κ ν), (placeAll key m l).Perm (m ++ l.map fun v => (key v, v)) := by
    intro l
    induction l with
    | nil => simp [placeAll]
    | cons v l ih => exact fun m => (ih _).trans (((place_perm (key v) v m).append_right _).trans perm_middle.symm)
  exact hplace l []

/-- Values of distinct keys make the map that has them in the order of their keys, in whatever order they are entered. -/
theorem insertAll_eq {key : ν → κ} {l : List ν} (hkeys : (l.map key).Nodup) (hs : m.Pairwise fun d e => d.1 < e.1)
    (hm : m.Perm (l.map fun v => (key v, v))) : insertAll key [] l = m := by
  refine List.Perm.eq_of_pairwise ?_ (sorted_insertAll key l List.Pairwise.nil) hs ((insertAll_entries hkeys).trans hm.symm)
  exact fun d e _ _ hde hed => absurd hed (lt_asymm hde)

/-- A value assigned keeps the order. -/
theorem sorted_assign (hs : m.Pairwise fun d e => d.1 < e.1) (k : κ) (v : ν) : (m.assign k v).Pairwise fun d e => d.1 < e.1 := by
  unfold assign
  split
  · refine pairwise_map.mpr (hs.imp fun {d e} hlt => ?_)
    have hkey : ∀ e : κ × ν, (if e.1 = k then (k, v) else e).1 = e.1 := fun e => by
      split
      · rename_i he
        exact he.symm
      · rfl
    rw [hkey, hkey]
    exact hlt
  · rename_i hk
    exact sorted_place hs (by simpa using hk)

/-- A key behind all others has its entry last. -/
theorem assign_behind (hlt : ∀ e ∈ m, e.1 < k) (v : ν) : m.assign k v = m ++ [(k, v)] := by
  have hnew : m.contains k = false := not_contains_iff.mpr fun hmem => by
    obtain ⟨e, he, rfl⟩ := List.mem_map.mp hmem
    exact lt_irrefl _ (hlt e he)
  rw [assign, if_neg (by simp [hnew])]
  clear hnew
  induction m with
  | nil => rfl
  | cons e m ih =>
    rw [place, if_neg (lt_asymm (hlt e mem_cons_self)), ih fun d hd => hlt d (mem_cons_of_mem e hd)]
    rfl

/-- The entry there is replaced. -/
theorem assign_last (hlt : ∀ e ∈ m, e.1 < k) (u v : ν) : OrderedMap.assign (m ++ [(k, u)]) k v = m ++ [(k, v)] := by
  have hthere : OrderedMap.contains (m ++ [(k, u)]) k = true := contains_iff.mpr ⟨u, by simp⟩
  rw [assign, if_pos hthere, map_append, map_cons, if_pos rfl]
  have hold : (m.map fun e => if e.1 = k then (k, v) else e) = m := by
    conv_rhs => rw [← map_id m]
    exact map_congr_left fun e he => if_neg (ne_of_lt (hlt e he))
  rw [hold]
  rfl

theorem find_last (hlt : ∀ e ∈ m, e.1 < k) (v : ν) : OrderedMap.find (m ++ [(k, v)]) k = some v := by
  induction m with
  | nil => simp [find]
  | cons e m ih =>
    rw [cons_append, find_cons, if_neg (ne_of_gt (hlt e mem_cons_self)), ih fun d hd => hlt d (mem_cons_of_mem e hd)]

theorem find_behind (hlt : ∀ e ∈ m, e.1 < k) : m.find k = none :=
  find_eq_none.mpr (not_contains_iff.mpr fun hmem => by
    obtain ⟨e, he, rfl⟩ := List.mem_map.mp hmem
    exact lt_irrefl _ (hlt e he))

end Sorted

end OrderedMap

end Metadef
