import Metadef.Lib.OrderedMap

/-! # Registries

Values kept twice: in a list, and in a map under names. The two agree when they hold the same values, each once. This file says
when adding a value to both and taking one out of both keep them in agreement. -/

namespace Metadef

open OrderedMap

namespace Registry

variable {κ α : Type} [DecidableEq κ] [DecidableEq α] {l : List α} {m : OrderedMap κ α} {k : κ} {x : α}

/-- The list and the map hold the same values, each once in the list and under one name. -/
structure Agree (l : List α) (m : OrderedMap κ α) : Prop where
  once : l.Nodup
  keys : (m.map Prod.fst).Nodup
  perm : (m.map Prod.snd).Perm l

/-- A value is in neither, and the others are still in both. -/
structure Removed (x : α) (l l' : List α) (m' : OrderedMap κ α) : Prop where
  list : x ∉ l'
  map : x ∉ m'.map Prod.snd
  others : ∀ y ∈ l, y ≠ x → y ∈ l' ∧ y ∈ m'.map Prod.snd

/-- A name is that of a value and of no other; or neither is there. -/
def KeyedBy (m : OrderedMap κ α) (k : κ) (x : α) : Prop := ∀ e ∈ m, e.1 = k ↔ e.2 = x

instance (m : OrderedMap κ α) (k : κ) (x : α) : Decidable (KeyedBy m k x) := inferInstanceAs (Decidable (∀ e ∈ m, _))

omit [DecidableEq κ] [DecidableEq α] in
theorem agree_nil : Agree ([] : List α) ([] : OrderedMap κ α) := ⟨List.nodup_nil, List.nodup_nil, .nil⟩

omit [DecidableEq κ] [DecidableEq α] in
theorem Agree.mem_iff (ha : Agree l m) : x ∈ l ↔ ∃ e ∈ m, e.2 = x := by
  rw [← ha.perm.mem_iff, List.mem_map]

variable {e d : κ × α} {p : α → Bool}

omit [DecidableEq κ] [DecidableEq α] in
theorem Agree.eq_of_key (ha : Agree l m) (he : e ∈ m) (hd : d ∈ m) (hk : e.1 = d.1) : e = d :=
  List.inj_on_of_nodup_map ha.keys he hd hk

omit [DecidableEq κ] [DecidableEq α] in
theorem Agree.eq_of_value (ha : Agree l m) (he : e ∈ m) (hd : d ∈ m) (hx : e.2 = d.2) : e = d :=
  List.inj_on_of_nodup_map (ha.perm.nodup_iff.mpr ha.once) he hd hx

/-! ## Adding -/

omit [DecidableEq α] in
/-- Adding a value to both keeps the agreement when neither the value nor the name is there. -/
theorem Agree.assign_iff [LT κ] [DecidableLT κ] (ha : Agree l m) :
    Agree (l ++ [x]) (m.assign k x) ↔ x ∉ l ∧ m.contains k = false := by
  constructor
  · intro hadded
    have hnot : x ∉ l := fun hx => (List.nodup_append.mp hadded.once).2.2 x hx x (by simp) rfl
    refine ⟨hnot, ?_⟩
    -- a name that is there gets no new entry
    cases hk : m.contains k with
    | false => rfl
    | true =>
      have hlen := hadded.perm.length_eq
      have hlen' := ha.perm.length_eq
      simp only [OrderedMap.assign, hk, if_true, List.length_map, List.length_append, List.length_singleton] at hlen hlen'
      omega
  · rintro ⟨hx, hk⟩
    have hassign : m.assign k x = OrderedMap.place k x m := by simp [OrderedMap.assign, hk]
    have hplace := place_perm k x m
    rw [hassign]
    refine ⟨?_, ?_, ?_⟩
    · exact List.nodup_append.mpr ⟨ha.once, List.nodup_singleton x, by
        rintro y hy z hz rfl
        exact hx (List.mem_singleton.mp hz ▸ hy)⟩
    · rw [(hplace.map Prod.fst).nodup_iff, List.map_cons]
      exact List.nodup_cons.mpr ⟨OrderedMap.not_contains_iff.mp hk, ha.keys⟩
    · have hvalues := hplace.map Prod.snd
      rw [List.map_cons] at hvalues
      exact (hvalues.trans (ha.perm.cons x)).trans (List.perm_append_singleton x l).symm

/-! ## Taking out -/

omit [DecidableEq α] in
theorem mem_erase : e ∈ m.erase k ↔ e ∈ m ∧ e.1 ≠ k := by
  simp [OrderedMap.erase]

/-- Taking out an entry keeps the agreement. -/
theorem Agree.erase (ha : Agree l m) (he : (k, x) ∈ m) : Agree (l.erase x) (m.erase k) := by
  have hperm : m.Perm ((k, x) :: m.erase k) := by
    have hcons := List.perm_cons_erase he
    have herase : List.erase m (k, x) = m.erase k := by
      have hnodup : m.Nodup := ha.keys.of_map
      rw [hnodup.erase_eq_filter]
      refine List.filter_congr fun e hmem => ?_
      have hiff : e = (k, x) ↔ e.1 = k := ⟨fun h => h ▸ rfl, fun h => ha.eq_of_key hmem he h⟩
      rw [bne, beq_eq_decide, decide_not]
      exact congrArg _ (decide_eq_decide.mpr hiff)
    rwa [herase] at hcons
  have hvalues := hperm.map Prod.snd
  rw [List.map_cons] at hvalues
  refine ⟨ha.once.erase x, ?_, ?_⟩
  · exact (List.filter_sublist.map Prod.fst).nodup ha.keys
  · have hmem : x ∈ l := ha.mem_iff.mpr ⟨(k, x), he, rfl⟩
    exact List.Perm.cons_inv ((hvalues.symm.trans ha.perm).trans (List.perm_cons_erase hmem))

/-- Where neither the name nor the value is there, nothing goes. -/
theorem Agree.erase_absent (ha : Agree l m) (hkey : KeyedBy m k x) (hnone : (k, x) ∉ m) : m.erase k = m ∧ l.erase x = l := by
  have hno : ∀ e ∈ m, e.1 ≠ k ∧ e.2 ≠ x := by
    intro e he
    refine ⟨fun h => hnone ?_, fun h => hnone ?_⟩
    · exact (Prod.ext h ((hkey e he).mp h) : e = (k, x)) ▸ he
    · exact (Prod.ext ((hkey e he).mpr h) h : e = (k, x)) ▸ he
  refine ⟨List.filter_eq_self.mpr fun e he => by simpa using (hno e he).1, List.erase_of_not_mem fun hx => ?_⟩
  obtain ⟨e, he, hex⟩ := ha.mem_iff.mp hx
  exact (hno e he).2 hex

/-- What taking out the name and the value leaves when they belong together. -/
theorem Agree.erase_both (ha : Agree l m) (hkey : KeyedBy m k x) :
    Agree (l.erase x) (m.erase k) ∧ Removed x l (l.erase x) (m.erase k) := by
  have hagree : Agree (l.erase x) (m.erase k) := by
    by_cases he : (k, x) ∈ m
    · exact ha.erase he
    · obtain ⟨hm, hl⟩ := ha.erase_absent hkey he
      rw [hm, hl]
      exact ha
  have hnot : x ∉ l.erase x := ha.once.not_mem_erase
  refine ⟨hagree, hnot, fun hx => hnot ((hagree.perm.mem_iff).mp hx), fun y hy hne => ?_⟩
  have hy' : y ∈ l.erase x := (List.mem_erase_of_ne hne).mpr hy
  exact ⟨hy', hagree.perm.mem_iff.mpr hy'⟩

/-- Taking out a name and a value keeps the agreement, and the others, when they belong together. -/
theorem Agree.erase_iff (ha : Agree l m) :
    Agree (l.erase x) (m.erase k) ∧ Removed x l (l.erase x) (m.erase k) ↔ KeyedBy m k x := by
  refine ⟨fun ⟨_, hr⟩ e he => ⟨fun hek => ?_, fun hex => ?_⟩, ha.erase_both⟩
  · -- the value of the name would be gone from the map
    by_contra hne
    obtain ⟨d, hd, hde⟩ := List.mem_map.mp (hr.others e.2 (ha.mem_iff.mpr ⟨e, he, rfl⟩) hne).2
    obtain ⟨hdm, hdk⟩ := mem_erase.mp hd
    exact hdk (ha.eq_of_value hdm he hde ▸ hek)
  · by_contra hne
    exact hr.map (List.mem_map.mpr ⟨e, mem_erase.mpr ⟨he, hne⟩, hex⟩)

omit [DecidableEq α] in
theorem find_eq_some (ha : Agree l m) : m.find k = some x ↔ (k, x) ∈ m := by
  have hkeys := ha.keys
  clear ha
  induction m with
  | nil => simp [OrderedMap.find]
  | cons e m ih =>
    obtain ⟨k', y⟩ := e
    obtain ⟨hnot, hrest⟩ := List.nodup_cons.mp hkeys
    by_cases hk : k = k'
    · subst hk
      have hno : (k, x) ∉ m := fun h => hnot (List.mem_map.mpr ⟨_, h, rfl⟩)
      simp [OrderedMap.find, hno, eq_comm]
    · have hbeq : (k == k') = false := by simpa using hk
      simpa [OrderedMap.find, List.lookup_cons, hbeq, hk] using ih hrest

/-- Taking out what a name holds removes a value when it is the value of the name. -/
theorem Agree.remove_found (ha : Agree l m) {y : α} (hy : m.find k = some y) :
    Removed x l (l.erase y) (m.erase k) ↔ KeyedBy m k x := by
  have hmem : (k, y) ∈ m := (find_eq_some ha).mp hy
  constructor
  · intro hr
    obtain rfl : y = x := by
      by_contra hne
      exact ha.once.not_mem_erase (hr.others y (ha.mem_iff.mpr ⟨_, hmem, rfl⟩) hne).1
    exact ha.erase_iff.mp ⟨ha.erase hmem, hr⟩
  · intro hkey
    obtain rfl : y = x := (hkey _ hmem).mp rfl
    exact (ha.erase_both hkey).2

omit [DecidableEq α] in
/-- Taking out nothing removes a value when neither the value nor the name is there. -/
theorem Agree.remove_missing (ha : Agree l m) (hk : m.find k = none) : Removed x l l m ↔ KeyedBy m k x := by
  have hno : ∀ e ∈ m, e.1 ≠ k := by
    rintro e he rfl
    rw [(find_eq_some ha).mpr he] at hk
    cases hk
  constructor
  · intro hr e he
    exact ⟨fun h => absurd h (hno e he), fun h => absurd (ha.mem_iff.mpr ⟨e, he, h⟩) hr.list⟩
  · intro hkey
    have hx : x ∉ l := by
      intro hx
      obtain ⟨e, he, hex⟩ := ha.mem_iff.mp hx
      exact hno e he ((hkey e he).mpr hex)
    exact ⟨hx, fun h => hx (ha.perm.mem_iff.mp h), fun y hy _ => ⟨hy, ha.perm.mem_iff.mpr hy⟩⟩

/-! ## Taking out several -/

/-- What a name holds is taken out of the list at its first place, and the name out of the map. -/
def takeOut (s : List α × OrderedMap κ α) (k : κ) : List α × OrderedMap κ α :=
  match s.2.find k with
  | none => s
  | some x => (s.1.erase x, s.2.erase k)

omit [DecidableEq α] in
theorem find_erase_of_ne {j : κ} (hne : j ≠ k) : (m.erase k).find j = m.find j := by
  induction m with
  | nil => rfl
  | cons e m ih =>
    rw [find_cons, ← ih]
    by_cases hk : e.1 = k
    · rw [OrderedMap.erase, List.filter_cons_of_neg (by simpa using hk), if_neg (hk ▸ hne)]
      rfl
    · rw [OrderedMap.erase, List.filter_cons_of_pos (by simpa using hk)]
      exact find_cons e _ j

/-- Names taken out one after the other take with them what they hold. -/
theorem foldl_takeOut : ∀ {ks : List κ} {l : List α} {m : OrderedMap κ α}, ks.Nodup →
    ks.foldl takeOut (l, m) = (l.diff (ks.filterMap m.find), m.filter fun e => e.1 ∉ ks) := by
  intro ks
  induction ks with
  | nil => exact fun {_ _} _ => by simp
  | cons k ks ih =>
    intro l m hks
    obtain ⟨hk, hks⟩ := List.nodup_cons.mp hks
    have hrest : ks.filterMap (m.erase k).find = ks.filterMap m.find := List.filterMap_congr fun j hj =>
      find_erase_of_ne fun hjk => hk (hjk ▸ hj)
    have hfilter : (m.erase k).filter (fun e => e.1 ∉ ks) = m.filter fun e => e.1 ∉ k :: ks := by
      rw [OrderedMap.erase, List.filter_filter]
      refine List.filter_congr fun e _ => ?_
      by_cases hek : e.1 = k <;> by_cases hes : e.1 ∈ ks <;> simp [hek, hes]
    rw [List.foldl_cons, takeOut]
    cases hfind : m.find k with
    | none =>
      have hsame : m.erase k = m := List.filter_eq_self.mpr fun e he => decide_eq_true fun hek => by
        rw [find_eq_none, not_contains_iff] at hfind
        exact hfind (hek ▸ List.mem_map_of_mem he)
      rw [ih hks, List.filterMap_cons_none hfind, ← hfilter, hsame]
    | some x => rw [ih hks, List.filterMap_cons_some hfind, hrest, hfilter, List.diff_cons]

theorem count_diff (x : α) : ∀ {D l : List α}, (l.diff D).count x = l.count x - D.count x := by
  intro D
  induction D with
  | nil => exact fun {_} => by simp
  | cons y D ih =>
    intro l
    rw [List.diff_cons, ih, List.count_erase, List.count_cons, Nat.sub_sub, Nat.add_comm]

/-- Taking items out at their first places takes all of them out exactly when enough are taken. -/
theorem diff_eq_filter_iff {l D : List α} (hp : ∀ x, p x = true ↔ x ∉ D) :
    l.diff D = l.filter p ↔ ∀ x ∈ D, l.count x ≤ D.count x := by
  have hfalse : ∀ x ∈ D, p x = false := fun x hx => Bool.eq_false_iff.mpr fun hpx => (hp x).mp hpx hx
  constructor
  · intro heq x hx
    have hnone : (l.filter p).count x = 0 := List.count_eq_zero_of_not_mem fun hmem => by
      have hpx := (List.mem_filter.mp hmem).2
      rw [hfalse x hx] at hpx
      cases hpx
    rw [← heq, count_diff] at hnone
    exact Nat.le_of_sub_eq_zero hnone
  · intro hle
    have hkeep : ∀ {D l : List α}, (∀ x ∈ D, p x = false) → (l.diff D).filter p = l.filter p := by
      intro D
      induction D with
      | nil => exact fun _ => by rw [List.diff_nil]
      | cons x D ih =>
        intro l hD
        rw [List.diff_cons, ih fun y hy => hD y (List.mem_cons_of_mem x hy), ← List.erase_filter]
        refine List.erase_of_not_mem fun hmem => ?_
        have hpx := (List.mem_filter.mp hmem).2
        rw [hD x List.mem_cons_self] at hpx
        cases hpx
    rw [← hkeep hfalse]
    refine (List.filter_eq_self.mpr fun x hx => (hp x).mpr fun hmem => ?_).symm
    have hpos := List.count_pos_iff.mpr hx
    rw [count_diff] at hpos
    have := hle x hmem
    omega

/-- Where all names are there, what they hold is taken out, and nothing else, exactly when it is held under no other names and is in the
list no more often than names hold it. -/
theorem takenOut_iff {ks : List κ} (hkeys : (m.map Prod.fst).Nodup) (hks : ks.Nodup)
    (hfound : ∀ k ∈ ks, m.find k ≠ none) (hp : ∀ x, p x = true ↔ x ∉ ks.filterMap m.find) :
    (l.diff (ks.filterMap m.find) = l.filter p ∧ (m.filter fun e => e.1 ∉ ks) = m.filter fun e => p e.2) ↔
      (∀ e ∈ m, e.2 ∈ ks.filterMap m.find → e.1 ∈ ks) ∧
        ∀ x ∈ ks.filterMap m.find, l.count x ≤ m.countP fun e => e.2 = x := by
  have hheld : ∀ e ∈ m, e.1 ∈ ks → e.2 ∈ ks.filterMap m.find := fun e he hk =>
    List.mem_filterMap.mpr ⟨e.1, hk, find_of_mem hkeys he⟩
  have hmap : (m.filter fun e => e.1 ∉ ks) = m.filter (fun e => p e.2) ↔ ∀ e ∈ m, e.2 ∈ ks.filterMap m.find → e.1 ∈ ks := by
    constructor
    · intro heq e he hx
      by_contra hk
      have hmem : e ∈ m.filter fun e => p e.2 := heq ▸ List.mem_filter.mpr ⟨he, decide_eq_true hk⟩
      exact (hp e.2).mp (List.mem_filter.mp hmem).2 hx
    · intro hall
      refine List.filter_congr fun e he => ?_
      rw [Bool.eq_iff_iff, hp, decide_eq_true_iff]
      exact not_congr ⟨hheld e he, hall e he⟩
  rw [diff_eq_filter_iff hp, hmap, and_comm]
  refine and_congr_right fun hall => forall₂_congr fun x hx => ?_
  -- the names are the keys of the entries that hold what is taken out
  have hperm : ks.Perm ((m.filter fun e => e.1 ∈ ks).map Prod.fst) := by
    refine (List.perm_ext_iff_of_nodup hks ((List.filter_sublist.map Prod.fst).nodup hkeys)).mpr fun k => ?_
    simp only [List.mem_map, List.mem_filter, decide_eq_true_eq]
    constructor
    · intro hk
      obtain ⟨y, hy⟩ := Option.ne_none_iff_exists'.mp (hfound k hk)
      exact ⟨(k, y), ⟨mem_of_find hy, hk⟩, rfl⟩
    · rintro ⟨e, ⟨-, hk⟩, rfl⟩
      exact hk
  have hvalues : ((m.filter fun e => e.1 ∈ ks).map Prod.fst).filterMap m.find = (m.filter fun e => e.1 ∈ ks).map Prod.snd := by
    rw [List.filterMap_map]
    rw [← List.filterMap_eq_map]
    exact List.filterMap_congr fun e he => find_of_mem hkeys (List.mem_of_mem_filter he)
  have hcount : (ks.filterMap m.find).count x = m.countP fun e => e.2 = x := by
    rw [(hperm.filterMap m.find).count_eq, hvalues, List.count_eq_countP, List.countP_map, List.countP_filter]
    refine List.countP_congr fun e he => ?_
    simp only [Function.comp_apply, Bool.and_eq_true, beq_iff_eq, decide_eq_true_eq]
    exact ⟨And.left, fun hex => ⟨hex, hall e he (hex ▸ hx)⟩⟩
  rw [hcount]

end Registry

end Metadef
