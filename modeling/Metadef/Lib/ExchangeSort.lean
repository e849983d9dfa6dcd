import Mathlib.Data.List.Nodup
import Mathlib.Data.List.Pairwise
import Mathlib.Order.Lattice

/-! # Exchange sort with one reading of the key

A round compares the key its place had at first with the later keys and swaps the place with each larger one. The key is not
read again after a swap, so the place ends with the last of the larger ones, which need not be the largest. Items without a key
stay where they are. -/

namespace Metadef

open List Option

namespace ExchangeSort

variable {α κ : Type} [LinearOrder κ]

/-- The inner loop: what the place holds in the end, and what is left behind it. -/
def sweep (key : α → Option κ) (k : κ) : α → List α → α × List α
  | c, [] => (c, [])
  | c, b :: l =>
    if (key b).any (k < ·) then ((sweep key k b l).1, c :: (sweep key k b l).2)
    else ((sweep key k c l).1, b :: (sweep key k c l).2)

theorem sweep_length (key : α → Option κ) (k : κ) (c : α) (l : List α) : (sweep key k c l).2.length = l.length := by
  induction l generalizing c with
  | nil => rfl
  | cons b l ih =>
    rw [sweep]
    split
    · simp [ih]
    · simp [ih]

/-- The outer loop. -/
def sort (key : α → Option κ) : List α → List α
  | [] => []
  | a :: l =>
    match key a with
    | none => a :: sort key l
    | some k => (sweep key k a l).1 :: sort key (sweep key k a l).2
termination_by l => l.length
decreasing_by
  · simp
  · simp [sweep_length]

variable {key : α → Option κ} {k kc : κ} {a c : α} {l : List α}

theorem sort_none (hk : key a = none) : sort key (a :: l) = a :: sort key l := by
  rw [sort]
  simp [hk]

theorem sort_some (hk : key a = some k) : sort key (a :: l) = (sweep key k a l).1 :: sort key (sweep key k a l).2 := by
  rw [sort]
  simp [hk]

/-! ## Items are only moved -/

theorem perm_sweep (key : α → Option κ) (k : κ) (c : α) (l : List α) :
    ((sweep key k c l).1 :: (sweep key k c l).2).Perm (c :: l) := by
  induction l generalizing c with
  | nil => exact .refl _
  | cons b l ih =>
    rw [sweep]
    split
    · exact (List.Perm.swap _ _ _).trans ((ih b).cons c)
    · exact ((List.Perm.swap _ _ _).trans ((ih c).cons b)).trans (List.Perm.swap _ _ _)

theorem perm_sort (key : α → Option κ) (l : List α) : (sort key l).Perm l := by
  induction l using sort.induct key with
  | case1 => simp [sort]
  | case2 a l hk ih =>
    rw [sort_none hk]
    exact ih.cons a
  | case3 a l k hk ih =>
    rw [sort_some hk]
    exact (ih.cons _).trans (perm_sweep key k a l)

/-- Of the items with a key a round makes what it makes of the keys alone. -/
theorem sweep_keys (hc : key c = some kc) : key (sweep key k c l).1 = some (sweep some k kc (l.filterMap key)).1 ∧
    (sweep key k c l).2.filterMap key = (sweep some k kc (l.filterMap key)).2 := by
  induction l generalizing c kc with
  | nil => exact ⟨hc, rfl⟩
  | cons b l ih =>
    cases hb : key b with
    | none =>
      obtain ⟨h1, h2⟩ := ih hc
      simp [sweep, hb, h1, h2]
    | some kb =>
      by_cases hlt : k < kb
      · obtain ⟨h1, h2⟩ := ih hb
        simp [sweep, hb, hc, hlt, h1, h2]
      · obtain ⟨h1, h2⟩ := ih hc
        simp [sweep, hb, hlt, h1, h2]

theorem sort_keys (key : α → Option κ) (l : List α) : (sort key l).filterMap key = sort some (l.filterMap key) := by
  induction l using sort.induct key with
  | case1 => simp [sort]
  | case2 a l hk ih => rw [sort_none hk, filterMap_cons_none hk, filterMap_cons_none hk, ih]
  | case3 a l k hk ih =>
    obtain ⟨h1, h2⟩ := sweep_keys (l := l) (k := k) hk
    rw [sort_some hk, filterMap_cons_some h1, filterMap_cons_some hk, sort_some rfl, ih, h2]

/-- A round leaves the items without a key as they are. -/
theorem sweep_unkeyed (hc : (key c).isSome = true) : (key (sweep key k c l).1).isSome = true ∧
      (sweep key k c l).2.filter (fun x => (key x).isNone) = l.filter fun x => (key x).isNone := by
  induction l generalizing c with
  | nil => exact ⟨hc, rfl⟩
  | cons b l ih =>
    rw [sweep]
    split
    · rename_i hb
      have hb : (key b).isSome = true := by
        cases hkb : key b with
        | none => simp [hkb] at hb
        | some kb => rfl
      obtain ⟨h1, h2⟩ := ih hb
      exact ⟨h1, by simp [h2, Option.isNone_eq_false_iff.mpr hc, Option.isNone_eq_false_iff.mpr hb]⟩
    · obtain ⟨h1, h2⟩ := ih hc
      exact ⟨h1, by simp [filter_cons, h2]⟩

theorem sort_unkeyed (key : α → Option κ) (l : List α) :
    (sort key l).filter (fun x => (key x).isNone) = l.filter fun x => (key x).isNone := by
  induction l using sort.induct key with
  | case1 => simp [sort]
  | case2 a l hk ih => simp [sort_none hk, hk, ih]
  | case3 a l k hk ih =>
    obtain ⟨h1, h2⟩ := sweep_unkeyed (c := a) (l := l) (k := k) (show (key a).isSome = true by simp [hk])
    rw [sort_some hk, filter_cons_of_neg (by simpa [isSome_iff_ne_none] using h1), filter_cons_of_neg
      (by simp [hk]), ih, h2]

/-! ## When the keys end in order -/

variable {l l' m s : List κ} {x y z c k : κ}

/-- No key comes before a larger one and, behind that, one in between. -/
def NoneBetween (l : List κ) : Prop := ∀ x y z, [x, y, z].Sublist l → ¬ (x < z ∧ z < y)

/-- The keys not smaller than the one compared with, before and after a round: the last of them is taken out. -/
theorem sweep_larger (hc : k ≤ c) (hk : k ∉ l) :
    (sweep some k c l).2.filter (fun x => k ≤ x) ++ [(sweep some k c l).1] = c :: l.filter fun x => k < x := by
  induction l generalizing c with
  | nil => rfl
  | cons b l ih =>
    obtain ⟨hb, hk⟩ : k ≠ b ∧ k ∉ l := by simpa using hk
    by_cases hlt : k < b
    · simp [sweep, hlt, hc, ih hlt.le hk]
    · have hle : ¬ k ≤ b := fun h => hlt (lt_of_le_of_ne h hb)
      simp [sweep, hlt, hle, ih hc hk]

/-- The smaller keys stay where they are, and no other comes to their places. -/
theorem sweep_forall₂ (hc : k ≤ c) (hk : k ∉ l) :
    List.Forall₂ (fun x y => (x < k ∧ x = y) ∨ (k < x ∧ k ≤ y)) l (sweep some k c l).2 := by
  induction l generalizing c with
  | nil => exact .nil
  | cons b l ih =>
    obtain ⟨hb, hk⟩ : k ≠ b ∧ k ∉ l := by simpa using hk
    by_cases hlt : k < b
    · simp only [sweep, any_some, hlt, decide_true, if_true]
      exact .cons (.inr ⟨hlt, hc⟩) (ih hlt.le hk)
    · simp only [sweep, any_some, hlt, decide_false, Bool.false_eq_true, if_false]
      exact .cons (.inl ⟨lt_of_le_of_ne (not_lt.mp hlt) hb.symm, rfl⟩) (ih hc hk)

omit [LinearOrder κ] in
/-- What stands in a list stands, item by item related, in one related to it. -/
theorem forall₂_sublist {r : κ → κ → Prop} (hr : List.Forall₂ r l l') (hs : s.Sublist l) :
    ∃ s', List.Forall₂ r s s' ∧ s'.Sublist l' := by
  induction hr generalizing s with
  | nil =>
    obtain rfl := sublist_nil.mp hs
    exact ⟨[], .nil, .slnil⟩
  | cons hxy _ ih =>
    rcases sublist_cons_iff.mp hs with hs | ⟨t, rfl, ht⟩
    · obtain ⟨s', h1, h2⟩ := ih hs
      exact ⟨s', h1, h2.cons _⟩
    · obtain ⟨s', h1, h2⟩ := ih ht
      exact ⟨_, .cons hxy h1, h2.cons_cons _⟩

omit [LinearOrder κ] in
theorem forall₂_triple {r : κ → κ → Prop} (hr : List.Forall₂ r l l') (hs : [x, y, z].Sublist l) :
    ∃ x' y' z', r x x' ∧ r y y' ∧ r z z' ∧ [x', y', z'].Sublist l' := by
  obtain ⟨s', hrel, hs'⟩ := forall₂_sublist hr hs
  obtain - | ⟨hx, - | ⟨hy, - | ⟨hz, ⟨⟩⟩⟩⟩ := hrel
  exact ⟨_, _, _, hx, hy, hz, hs'⟩

omit [LinearOrder κ] in
/-- A list that ends in another item than a longer one stands in it without its last. -/
theorem sublist_of_append_singleton (hs : (s ++ [z]).Sublist (l ++ [x])) (hzx : z ≠ x) : (s ++ [z]).Sublist l := by
  have hrev := hs.reverse
  simp only [reverse_append, reverse_cons, reverse_nil, nil_append, singleton_append] at hrev
  rcases sublist_cons_iff.mp hrev with h | ⟨t, ht, -⟩
  · simpa using h.reverse
  · exact absurd (List.cons.inj ht).1 hzx

/-- Larger keys that do not end in the one taken out stand behind the round's item as they stood. -/
theorem sublist_larger (hc : k ≤ c) (hk : k ∉ l) (hs : (s ++ [z]).Sublist (c :: l)) (hlarge : ∀ x ∈ s ++ [z], k ≤ x)
    (hz : z ≠ (sweep some k c l).1) : (s ++ [z]).Sublist (sweep some k c l).2 := by
  have hfilter : (s ++ [z]).Sublist ((c :: l).filter fun x => k ≤ x) := by
    have h := hs.filter fun x => decide (k ≤ x)
    rwa [filter_eq_self.mpr fun x hx => decide_eq_true (hlarge x hx)] at h
  have hsame : (c :: l).filter (fun x => k ≤ x) = c :: l.filter fun x => k < x := by
    rw [filter_cons_of_pos (by simpa using hc)]
    refine congrArg _ (filter_congr fun x hx => ?_)
    have hne : k ≠ x := fun e => hk (e ▸ hx)
    exact decide_eq_decide.mpr ⟨fun h => lt_of_le_of_ne h hne, le_of_lt⟩
  rw [hsame, ← sweep_larger hc hk] at hfilter
  exact (sublist_of_append_singleton hfilter hz).trans filter_sublist

/-- A smaller key in front of them stays there. -/
theorem sublist_smaller (hc : k ≤ c) (hk : k ∉ l) (hs : [x, y, z].Sublist l) (hx : x < k) (hy : k < y) (hz : k < z)
    (hlast : z ≠ (sweep some k c l).1) : [x, y, z].Sublist (sweep some k c l).2 := by
  induction l generalizing c with
  | nil => exact absurd (sublist_nil.mp hs) (by simp)
  | cons b l ih =>
    have hkl : k ∉ l := fun h => hk (mem_cons_of_mem _ h)
    rcases sublist_cons_iff.mp hs with hs | ⟨t, ht, hs⟩
    · by_cases hlt : k < b
      · simp only [sweep, any_some, hlt, decide_true, if_true] at hlast ⊢
        exact (ih hlt.le hkl hs hlast).cons _
      · simp only [sweep, any_some, hlt, decide_false, Bool.false_eq_true, if_false] at hlast ⊢
        exact (ih hc hkl hs hlast).cons _
    · obtain ⟨rfl, rfl⟩ := List.cons.inj ht
      simp only [sweep, any_some, not_lt_of_gt hx, decide_false, Bool.false_eq_true, if_false] at hlast ⊢
      refine List.Sublist.cons_cons _ (sublist_larger (s := [y]) hc hkl (hs.cons _) (fun w hw => ?_) hlast)
      rcases mem_pair.mp hw with rfl | rfl
      · exact hy.le
      · exact hz.le

/-- One round takes the largest key and leaves nothing between when nothing is between at first, and only then. -/
theorem noneBetween_cons (hl : (k :: l).Nodup) : NoneBetween (k :: l) ↔
    (∀ x ∈ k :: l, x ≤ (sweep some k k l).1) ∧ NoneBetween (sweep some k k l).2 := by
  obtain ⟨hk, hnodup⟩ := nodup_cons.mp hl
  have hrel := sweep_forall₂ le_rfl hk
  have hlarger := sweep_larger le_rfl hk
  constructor
  · intro ha
    -- the keys larger than the first increase
    have hinc : (k :: l.filter fun x => k < x).Pairwise (· < ·) := by
      refine pairwise_cons.mpr ⟨fun x hx => by simpa using (mem_filter.mp hx).2, ?_⟩
      refine pairwise_iff_forall_sublist.mpr fun {y z} hyz => ?_
      have hne : y ≠ z := pairwise_iff_forall_sublist.mp (hnodup.filter _) hyz
      have hkz : k < z := by simpa using (mem_filter.mp (hyz.subset (by simp : z ∈ [y, z]))).2
      refine lt_of_le_of_ne (not_lt.mp fun hzy => ha k y z ((hyz.trans filter_sublist).cons_cons _) ⟨hkz, hzy⟩) hne
    rw [← hlarger] at hinc
    obtain ⟨hinc, -, hlast⟩ := pairwise_append.mp hinc
    refine ⟨fun x hx => ?_, fun x y z hs hxzy => ?_⟩
    · by_cases hkx : k ≤ x
      · have hmem : x ∈ (sweep some k k l).2.filter (fun x => k ≤ x) ++ [(sweep some k k l).1] := by
          rw [hlarger]
          rcases mem_cons.mp hx with rfl | hx
          · exact mem_cons_self
          · have hne : k ≠ x := fun e => hk (e ▸ hx)
            exact mem_cons_of_mem _ (mem_filter.mpr ⟨hx, decide_eq_true (lt_of_le_of_ne hkx hne)⟩)
        rcases mem_append.mp hmem with hmem | hmem
        · exact (hlast x hmem _ mem_cons_self).le
        · exact (mem_singleton.mp hmem).le
      · have hfirst : k ∈ (sweep some k k l).2.filter (fun x => k ≤ x) ++ [(sweep some k k l).1] := by
          rw [hlarger]
          exact mem_cons_self
        rcases mem_append.mp hfirst with hmem | hmem
        · exact (le_of_not_ge hkx).trans (hlast k hmem _ mem_cons_self).le
        · exact (le_of_not_ge hkx).trans (mem_singleton.mp hmem).le
    · by_cases hkz : k ≤ z
      · have hyz : [y, z].Sublist ((sweep some k k l).2.filter fun x => k ≤ x) := by
          have h := (sublist_of_cons_sublist hs).filter fun x => decide (k ≤ x)
          rwa [filter_eq_self.mpr ?_] at h
          intro w hw
          rcases mem_pair.mp hw with rfl | rfl
          · exact decide_eq_true (hkz.trans hxzy.2.le)
          · exact decide_eq_true hkz
        exact lt_asymm (pairwise_iff_forall_sublist.mp hinc hyz) hxzy.2
      · have hzk : z < k := not_le.mp hkz
        obtain ⟨x', y', z', hx, hy, hz, hs'⟩ := forall₂_triple hrel.flip hs
        obtain rfl : x' = x := hx.elim And.right fun h => absurd (hxzy.1.trans hzk) (not_lt.mpr h.2)
        obtain rfl : z' = z := hz.elim And.right fun h => absurd hzk (not_lt.mpr h.2)
        refine ha x' y' z' (hs'.cons _) ⟨hxzy.1, hy.elim (fun h => h.2.symm ▸ hxzy.2) fun h => hzk.trans h.1⟩
  · rintro ⟨hmax, ha⟩ x y z hs hxzy
    have hy : y ∈ k :: l := hs.subset (by simp)
    have hz : z ≠ (sweep some k k l).1 := fun e => not_le.mpr hxzy.2 (e ▸ hmax y hy)
    by_cases hkx : k ≤ x
    · refine ha x y z (sublist_larger (s := [x, y]) le_rfl hk hs (fun w hw => ?_) hz) hxzy
      rcases (by simpa using hw : w = x ∨ w = y ∨ w = z) with rfl | rfl | rfl
      · exact hkx
      · exact hkx.trans (hxzy.1.trans hxzy.2).le
      · exact hkx.trans hxzy.1.le
    · have hxk : x < k := not_le.mp hkx
      have hs : [x, y, z].Sublist l := by
        rcases sublist_cons_iff.mp hs with h | ⟨t, ht, -⟩
        · exact h
        · exact absurd (List.cons.inj ht).1 hxk.ne
      by_cases hkz : k < z
      · exact ha x y z (sublist_smaller le_rfl hk hs hxk (hkz.trans hxzy.2) hkz hz) hxzy
      · have hzk : z < k := lt_of_le_of_ne (not_lt.mp hkz) fun e => hk (e ▸ hs.subset (by simp))
        obtain ⟨x', y', z', hx, hy', hz', hs'⟩ := forall₂_triple hrel hs
        obtain rfl : x = x' := hx.elim And.right fun h => absurd hxk (lt_asymm h.1)
        obtain rfl : z = z' := hz'.elim And.right fun h => absurd hzk (lt_asymm h.1)
        exact ha x y' z hs' ⟨hxzy.1, hy'.elim (fun h => h.2 ▸ hxzy.2) fun h => hzk.trans_le h.2⟩

/-- Distinct keys end in decreasing order when none is between at first, and only then. -/
theorem sort_decreasing_iff (l : List κ) (hl : l.Nodup) : (sort some l).Pairwise (fun x y => y < x) ↔ NoneBetween l := by
  induction l using sort.induct (some : κ → Option κ) with
  | case1 =>
    rw [sort]
    exact ⟨fun _ x y z hs => absurd (sublist_nil.mp hs) (by simp), fun _ => .nil⟩
  | case2 a l hk ih => cases hk
  | case3 a l k hk ih =>
    obtain rfl := Option.some.inj hk
    have hperm := perm_sweep some a a l
    have hnodup := hperm.nodup_iff.mpr hl
    obtain ⟨hfirst, hrest⟩ := nodup_cons.mp hnodup
    rw [sort_some rfl, pairwise_cons, noneBetween_cons hl, ih hrest]
    refine and_congr_left fun _ => ⟨fun h x hx => ?_, fun h x hx => ?_⟩
    · rcases mem_cons.mp (hperm.mem_iff.mpr hx) with rfl | hx
      · exact le_rfl
      · exact (h x ((perm_sort some _).mem_iff.mpr hx)).le
    · have hx : x ∈ (sweep some a a l).2 := (perm_sort some _).mem_iff.mp hx
      exact lt_of_le_of_ne (h x (hperm.mem_iff.mp (mem_cons_of_mem _ hx))) fun e => hfirst (e ▸ hx)

end ExchangeSort

end Metadef
