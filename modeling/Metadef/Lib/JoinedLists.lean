import Mathlib.Data.List.Basic
import Mathlib.Data.List.GetD
import Mathlib.Logic.Relation

/-!
# Joined lists

Lists of items that are joined two at a time, each into the other, and a table that gives a key the last list with an item of that
key. What a list ends with is what a chain of ties, taken in order, leads to it. The lists found in the table are classes exactly when
every index of a class leads to the last of it, and none further.
-/

namespace Metadef

open List

namespace JoinedLists

variable {ι α κ : Type}

/-! ## Joining -/

/-- Joins the lists of two indexes, each into the other. -/
def join (lists : List (List α)) (tie : Nat × Nat) : List (List α) :=
  let lists := lists.set tie.1 (lists.getD tie.1 [] ++ lists.getD tie.2 [])
  lists.set tie.2 (lists.getD tie.2 [] ++ lists.getD tie.1 [])

/-- A chain of ties, each later than the one before, leads from an index to another. -/
inductive Leads : List (Nat × Nat) → Nat → Nat → Prop where
  | here (i : Nat) : Leads [] i i
  | pass {t : Nat × Nat} {ts : List (Nat × Nat)} {i j : Nat} (hl : Leads ts i j) : Leads (t :: ts) i j
  | forth {d n j : Nat} {ts : List (Nat × Nat)} (hl : Leads ts n j) : Leads ((d, n) :: ts) d j
  | back {d n j : Nat} {ts : List (Nat × Nat)} (hl : Leads ts d j) : Leads ((d, n) :: ts) n j

theorem Leads.self : ∀ (ts : List (Nat × Nat)) (i : Nat), Leads ts i i
  | [], i => .here i
  | _ :: ts, i => .pass (Leads.self ts i)

variable {i j size : Nat} {ts : List (Nat × Nat)} {lists : List (List α)} {a : α}
  {conn : Nat → Nat → Prop}

theorem leads_nil : Leads [] i j ↔ i = j :=
  ⟨fun hl => by cases hl; rfl, fun h => h ▸ .here i⟩

theorem leads_cons {d n : Nat} : Leads ((d, n) :: ts) i j ↔ Leads ts i j ∨ (i = d ∧ Leads ts n j) ∨ (i = n ∧ Leads ts d j) := by
  constructor
  · intro hl
    cases hl with
    | pass hl => exact .inl hl
    | forth hl => exact .inr (.inl ⟨rfl, hl⟩)
    | back hl => exact .inr (.inr ⟨rfl, hl⟩)
  · rintro (hl | ⟨rfl, hl⟩ | ⟨rfl, hl⟩)
    · exact .pass hl
    · exact .forth hl
    · exact .back hl

instance decidableLeads : ∀ (ts : List (Nat × Nat)) (i j : Nat), Decidable (Leads ts i j)
  | [], _, _ => decidable_of_iff' _ leads_nil
  | (d, n) :: ts, i, j =>
    have := decidableLeads ts i j
    have := decidableLeads ts n j
    have := decidableLeads ts d j
    decidable_of_iff' _ leads_cons

theorem length_join (lists : List (List α)) (tie : Nat × Nat) : (join lists tie).length = lists.length := by
  simp [join]

theorem length_foldl_join (ts : List (Nat × Nat)) (lists : List (List α)) : (ts.foldl join lists).length = lists.length := by
  induction ts generalizing lists with
  | nil => rfl
  | cons t ts ih => rw [foldl_cons, ih, length_join]

theorem getD_set (lists : List (List α)) (i j : Nat) (l : List α) (hi : i < lists.length) :
    (lists.set i l).getD j [] = if j = i then l else lists.getD j [] := by
  rw [getD_eq_getElem?_getD, getElem?_set, getD_eq_getElem?_getD]
  by_cases hji : j = i
  · simp [hji, hi]
  · simp [hji, Ne.symm hji]

theorem mem_join {tie : Nat × Nat} (hd : tie.1 < lists.length) (hn : tie.2 < lists.length) :
    a ∈ (join lists tie).getD j [] ↔ a ∈ lists.getD j [] ∨ (j = tie.1 ∧ a ∈ lists.getD tie.2 []) ∨
      (j = tie.2 ∧ a ∈ lists.getD tie.1 []) := by
  unfold join
  rw [getD_set _ _ _ _ (by simpa using hn), getD_set _ _ _ _ hd, getD_set _ _ _ _ hd, getD_set _ _ _ _ hd]
  grind

/-- What a list ends with is what the lists that lead to it began with. -/
theorem mem_foldl_join (hts : ∀ t ∈ ts, t.1 < lists.length ∧ t.2 < lists.length) :
    a ∈ (ts.foldl join lists).getD j [] ↔ ∃ i, Leads ts i j ∧ a ∈ lists.getD i [] := by
  induction ts generalizing lists with
  | nil =>
    simp only [foldl_nil, leads_nil]
    exact ⟨fun ha => ⟨j, rfl, ha⟩, fun ⟨i, hi, ha⟩ => hi ▸ ha⟩
  | cons t ts ih =>
    obtain ⟨d, n⟩ := t
    obtain ⟨hd, hn⟩ := hts (d, n) mem_cons_self
    have hrest : ∀ t ∈ ts, t.1 < (join lists (d, n)).length ∧ t.2 < (join lists (d, n)).length := by
      intro t ht
      rw [length_join]
      exact hts t (mem_cons_of_mem _ ht)
    rw [foldl_cons, ih hrest]
    constructor
    · rintro ⟨i, hi, ha⟩
      rcases (mem_join hd hn).mp ha with ha | ⟨rfl, ha⟩ | ⟨rfl, ha⟩
      · exact ⟨i, .pass hi, ha⟩
      · exact ⟨n, .back hi, ha⟩
      · exact ⟨d, .forth hi, ha⟩
    · rintro ⟨i, hi, ha⟩
      rcases leads_cons.mp hi with hl | ⟨rfl, hl⟩ | ⟨rfl, hl⟩
      · exact ⟨i, hl, (mem_join hd hn).mpr (.inl ha)⟩
      · exact ⟨n, hl, (mem_join hd hn).mpr (.inr (.inr ⟨rfl, ha⟩))⟩
      · exact ⟨d, hl, (mem_join hd hn).mpr (.inr (.inl ⟨rfl, ha⟩))⟩

/-! ## Ties that settle -/

/-- To the last index of every class exactly the indexes of the class lead, and none of them leads further. -/
def Settled (ts : List (Nat × Nat)) (conn : Nat → Nat → Prop) (size : Nat) : Prop :=
  ∀ m < size, (∀ k < size, conn k m → k ≤ m) →
    (∀ j < size, Leads ts j m ↔ conn j m) ∧ ∀ i < size, conn i m → ∀ k < size, Leads ts i k → k ≤ m

/-- The last index that an index leads to. -/
def Last (ts : List (Nat × Nat)) (size i k : Nat) : Prop := k < size ∧ Leads ts i k ∧ ∀ m < size, Leads ts i m → m ≤ k

theorem exists_greatest {p : Nat → Prop} (hi : i < size) (hpi : p i) : ∃ k < size, p k ∧ ∀ m < size, p m → m ≤ k := by
  classical
  induction size with
  | zero => omega
  | succ size ih =>
    by_cases hs : p size
    · exact ⟨size, Nat.lt_succ_self _, hs, fun m hm _ => Nat.le_of_lt_succ hm⟩
    · have hne : i ≠ size := fun h => hs (h ▸ hpi)
      obtain ⟨k, hk, hpk, hmax⟩ := ih (by omega)
      refine ⟨k, Nat.lt_succ_of_lt hk, hpk, fun m hm hpm => hmax m ?_ hpm⟩
      have hne : m ≠ size := fun h => hs (h ▸ hpm)
      omega

theorem exists_last (ts : List (Nat × Nat)) (hi : i < size) : ∃ k, Last ts size i k := by
  obtain ⟨k, hk, hl, hmax⟩ := exists_greatest hi (Leads.self ts i)
  exact ⟨k, hk, hl, hmax⟩

/-- Ties are settled exactly when the indexes of a class are those that lead to the last index one of them leads to. -/
theorem settled_iff (hconn : Equivalence conn) :
    Settled ts conn size ↔ ∀ i < size, ∀ k, Last ts size i k → ∀ j < size, (Leads ts j k ↔ conn j i) := by
  constructor
  · intro hs i hi k hk j hj
    obtain ⟨m, hm, him, hmax⟩ := exists_greatest (p := fun m => conn m i) hi (hconn.refl i)
    obtain ⟨hin, hout⟩ := hs m hm fun k hk hkm => hmax k hk (hconn.trans hkm him)
    have hmk : m ≤ k := hk.2.2 m hm ((hin i hi).mpr (hconn.symm him))
    have hkm : k ≤ m := hout i hi (hconn.symm him) k hk.1 hk.2.1
    obtain rfl : k = m := by omega
    rw [hin j hj]
    exact ⟨fun h => hconn.trans h him, fun h => hconn.trans h (hconn.symm him)⟩
  · intro hall m hm hmax
    obtain ⟨k, hk⟩ := exists_last ts hm
    have hkm : k ≤ m := hmax k hk.1 ((hall m hm k hk k hk.1).mp (Leads.self ts k))
    have hmk : m ≤ k := hk.2.2 m hm (Leads.self ts m)
    obtain rfl : k = m := by omega
    refine ⟨hall k hm k hk, fun i hi hik n hn hin => ?_⟩
    obtain ⟨last, hlast⟩ := exists_last ts hi
    have hreach : last ≤ k := by
      have hself : conn last i := (hall i hi last hlast last hlast.1).mp (Leads.self ts last)
      exact hmax last hlast.1 (hconn.trans hself hik)
    exact Nat.le_trans (hlast.2.2 n hn hin) hreach

theorem settled_nil (hconn : ∀ i j, conn i j ↔ i = j) (size : Nat) : Settled [] conn size := by
  intro m _ _
  refine ⟨fun j _ => by rw [leads_nil, hconn], fun i _ him k _ hik => ?_⟩
  rw [leads_nil] at hik
  rw [hconn] at him
  omega

end JoinedLists

/-! ## The table -/

open JoinedLists

/-- Lists of several owners, the ties along which those of each owner are joined, and the keys of the items. -/
structure JoinedFamily (ι α κ : Type) where
  owners : List ι
  base : ι → List (List α)
  ties : ι → List (Nat × Nat)
  key : α → κ

namespace JoinedFamily

variable {ι α κ : Type}

/-- The lists of an owner once joined. -/
def joined (F : JoinedFamily ι α κ) (w : ι) : List (List α) := (F.ties w).foldl join (F.base w)

/-- The last list with an item of a key, none when there is no such list. -/
def look [DecidableEq κ] (F : JoinedFamily ι α κ) (k : κ) : List α :=
  ((F.owners.flatMap F.joined).reverse.find? fun l => l.any fun c => decide (F.key c = k)).getD []

/-- The ties are between lists there are, and no item is in two of the lists. -/
structure WellMade (F : JoinedFamily ι α κ) : Prop where
  bound : ∀ w ∈ F.owners, ∀ t ∈ F.ties w, t.1 < (F.base w).length ∧ t.2 < (F.base w).length
  apart : ∀ w ∈ F.owners, ∀ u ∈ F.owners, ∀ i j a, a ∈ (F.base w).getD i [] → a ∈ (F.base u).getD j [] → w = u ∧ i = j

/-- An item is found under the key of another exactly when the same items are found under both keys. -/
def Partitions [DecidableEq κ] (F : JoinedFamily ι α κ) (proper : α → Prop) : Prop :=
  ∀ x y, proper x → proper y → F.look (F.key x) ≠ [] →
    (y ∈ F.look (F.key x) ↔ ∀ z, z ∈ F.look (F.key x) ↔ z ∈ F.look (F.key y))

/-- Items of two indexes of an owner are found together exactly when the indexes are connected. -/
def Matches [DecidableEq κ] (F : JoinedFamily ι α κ) (marks : ι → Nat → List α) (conn : Nat → Nat → Prop) (w : ι) : Prop :=
  ∀ i < (F.base w).length, ∀ j < (F.base w).length, ∀ x ∈ marks w i, ∀ y ∈ marks w j, y ∈ F.look (F.key x) ↔ conn j i

/-- An item with the key of an item of a list is in a list connected to it. -/
def KeysApart (F : JoinedFamily ι α κ) (proper : α → Prop) (conn : ι → Nat → Nat → Prop) : Prop :=
  ∀ x, proper x → ∀ w ∈ F.owners, ∀ j, ∀ c ∈ (F.base w).getD j [], F.key x = F.key c →
    ∃ i, x ∈ (F.base w).getD i [] ∧ conn w i j

section Classes

variable {F : JoinedFamily ι α κ} {w : ι} {x a : α} {i j k : Nat}

theorem lt_of_mem_getD {lists : List (List α)} (ha : a ∈ lists.getD i []) : i < lists.length := by
  rcases Nat.lt_or_ge i lists.length with hi | hi
  · exact hi
  · rw [getD_eq_default _ _ hi] at ha
    cases ha

theorem mem_joined (hF : F.WellMade) (hw : w ∈ F.owners) :
    a ∈ (F.joined w).getD k [] ↔ ∃ i, Leads (F.ties w) i k ∧ a ∈ (F.base w).getD i [] := mem_foldl_join (hF.bound w hw)

theorem length_joined : (F.joined w).length = (F.base w).length := length_foldl_join _ _

/-- A list among those of all owners is one of an owner, and followed by the later ones of that owner. -/
theorem split_owner {s t : List (List α)} {l : List α} : ∀ {owners : List ι}, owners.flatMap F.joined = s ++ l :: t →
    ∃ w ∈ owners, ∃ k < (F.base w).length, l = (F.joined w).getD k [] ∧
      ∀ m, k < m → m < (F.base w).length → (F.joined w).getD m [] ∈ t := by
  intro owners
  induction owners generalizing s with
  | nil => simp
  | cons w owners ih =>
    intro hs
    rw [flatMap_cons] at hs
    have hlater : ∀ {s}, owners.flatMap F.joined = s ++ l :: t → ∃ u ∈ w :: owners, ∃ k < (F.base u).length,
        l = (F.joined u).getD k [] ∧ ∀ m, k < m → m < (F.base u).length → (F.joined u).getD m [] ∈ t := by
      intro s hs
      obtain ⟨u, hu, hfound⟩ := ih hs
      exact ⟨u, mem_cons_of_mem _ hu, hfound⟩
    rcases List.append_eq_append_iff.mp hs with ⟨r, -, hr⟩ | ⟨r, hr, ht⟩
    · exact hlater hr
    · cases r with
      | nil => exact hlater (s := []) ht.symm
      | cons l' r =>
        obtain ⟨rfl, rfl⟩ := List.cons.inj ht
        refine ⟨w, mem_cons_self, s.length, ?_, ?_, fun m hkm hm => mem_append_left _ ?_⟩
        · rw [← length_joined, hr]
          simp
        · rw [hr]
          simp
        · rw [← length_joined, hr] at hm
          rw [hr, getD_eq_getElem _ _ hm, getElem_append_right (Nat.le_of_lt hkm)]
          obtain ⟨d, hd⟩ : ∃ d, m - s.length = d + 1 := ⟨m - s.length - 1, by omega⟩
          simp only [hd, getElem_cons_succ]
          exact getElem_mem _

variable [DecidableEq κ]

/-- What is found under the key of an item of a list: a list with an item of that key, the last of its owner. -/
theorem look_spec (hw : w ∈ F.owners) (ha : a ∈ (F.joined w).getD j []) : ∃ u ∈ F.owners, ∃ k < (F.base u).length,
    F.look (F.key a) = (F.joined u).getD k [] ∧ (∃ c ∈ (F.joined u).getD k [], F.key c = F.key a) ∧
      ∀ m, k < m → m < (F.base u).length → ∀ c ∈ (F.joined u).getD m [], F.key c ≠ F.key a := by
  have hin : (F.joined w).getD j [] ∈ F.owners.flatMap F.joined := by
    refine mem_flatMap.mpr ⟨w, hw, ?_⟩
    rw [getD_eq_getElem _ _ (lt_of_mem_getD ha)]
    exact getElem_mem _
  have hsome : ((F.owners.flatMap F.joined).reverse.find? fun l => l.any fun c => decide (F.key c = F.key a)).isSome := by
    rw [find?_isSome]
    exact ⟨_, mem_reverse.mpr hin, any_eq_true.mpr ⟨a, ha, decide_eq_true rfl⟩⟩
  obtain ⟨l, hl⟩ := Option.isSome_iff_exists.mp hsome
  obtain ⟨hany, t, s, hsplit, hnone⟩ := find?_eq_some_iff_append.mp hl
  have hsplit : F.owners.flatMap F.joined = s.reverse ++ l :: t.reverse := by
    have hrev := congrArg List.reverse hsplit
    simpa using hrev
  obtain ⟨u, hu, k, hk, rfl, hafter⟩ := split_owner hsplit
  obtain ⟨c, hc, hkey⟩ := any_eq_true.mp hany
  refine ⟨u, hu, k, hk, by unfold look; rw [hl]; rfl, ⟨c, hc, of_decide_eq_true hkey⟩, fun m hkm hm c hc hkey => ?_⟩
  have hnot := hnone _ (mem_reverse.mp (hafter m hkm hm))
  rw [Bool.not_eq_true', any_eq_false] at hnot
  exact hnot c hc (decide_eq_true hkey)

/-- Where something is found, an item of that key is in one of the lists. -/
theorem exists_of_look {key : κ} (hne : F.look key ≠ []) : ∃ w ∈ F.owners, ∃ j, ∃ c ∈ (F.joined w).getD j [], F.key c = key := by
  unfold look at hne
  cases hl : (F.owners.flatMap F.joined).reverse.find? fun l => l.any fun c => decide (F.key c = key) with
  | none =>
    rw [hl] at hne
    exact absurd rfl hne
  | some l =>
    have hany : (l.any fun c => decide (F.key c = key)) = true := find?_some (p := fun l : List α => l.any _) hl
    obtain ⟨c, hc, hkey⟩ := any_eq_true.mp hany
    obtain ⟨w, hw, hlw⟩ := mem_flatMap.mp (mem_reverse.mp (mem_of_find?_eq_some hl))
    obtain ⟨j, hj, rfl⟩ := getElem_of_mem hlw
    refine ⟨w, hw, j, c, ?_, of_decide_eq_true hkey⟩
    rwa [getD_eq_getElem _ _ hj]

/-! ## Classes -/

variable {proper : α → Prop} {marks : ι → Nat → List α} {conn : ι → Nat → Nat → Prop} {loops : ι → Prop}

/-- Where keys are apart and ties are settled, what is found for an item is what is connected to it. -/
theorem mem_look (hF : F.WellMade) (hconn : ∀ w ∈ F.owners, Equivalence (conn w))
    (hproper : ∀ w ∈ F.owners, ∀ i, ∀ a ∈ (F.base w).getD i [], proper a) (hkeys : F.KeysApart proper conn)
    (hsettled : ∀ w ∈ F.owners, Settled (F.ties w) (conn w) (F.base w).length) (hw : w ∈ F.owners)
    (hx : x ∈ (F.base w).getD i []) {y : α} : y ∈ F.look (F.key x) ↔ ∃ j, conn w j i ∧ y ∈ (F.base w).getD j [] := by
  have hleads := (settled_iff (hconn w hw)).mp (hsettled w hw)
  have hi := lt_of_mem_getD hx
  obtain ⟨k, hk⟩ := exists_last (F.ties w) hi
  have hxk : x ∈ (F.joined w).getD k [] := (mem_joined hF hw).mpr ⟨i, hk.2.1, hx⟩
  obtain ⟨u, hu, m, hm, hlook, ⟨c, hc, hkey⟩, hlater⟩ := look_spec hw hxk
  obtain ⟨j, hjm, hcj⟩ := (mem_joined hF hu).mp hc
  -- the list found is one of the owner's, and the last that the index leads to
  obtain ⟨i₁, hxu, hij⟩ := hkeys x (hproper w hw i x hx) u hu j c hcj hkey.symm
  obtain ⟨rfl, rfl⟩ := hF.apart u hu w hw i₁ i x hxu hx
  have hj := lt_of_mem_getD hcj
  obtain ⟨last, hlast⟩ := exists_last (F.ties u) hj
  have hle : m ≤ k := Nat.le_trans (hlast.2.2 m hm hjm) (hk.2.2 last hlast.1 ((hleads j hj last hlast i₁ hi).mpr hij))
  have hnot : ¬ m < k := fun hlt => hlater k hlt hk.1 x hxk rfl
  obtain rfl : m = k := by omega
  rw [hlook, mem_joined hF hu]
  refine exists_congr fun j => and_congr_left fun hyj => ?_
  exact hleads i₁ hi m hk j (lt_of_mem_getD hyj)

/-- Where the lists found are classes, what is found for an item is a list of its owner that its index leads to, the last one. -/
theorem look_eq (hF : F.WellMade) (hproper : ∀ w ∈ F.owners, ∀ i, ∀ a ∈ (F.base w).getD i [], proper a)
    (hpart : F.Partitions proper) (hw : w ∈ F.owners) (hx : x ∈ (F.base w).getD i []) :
    x ∈ F.look (F.key x) ∧ ∃ k, Last (F.ties w) (F.base w).length i k ∧ F.look (F.key x) = (F.joined w).getD k [] := by
  have hxi : x ∈ (F.joined w).getD i [] := (mem_joined hF hw).mpr ⟨i, Leads.self _ i, hx⟩
  obtain ⟨u, hu, k, hk, hlook, ⟨c, hc, -⟩, hlater⟩ := look_spec hw hxi
  have hne : F.look (F.key x) ≠ [] := hlook ▸ ne_nil_of_mem hc
  have hself : x ∈ F.look (F.key x) := (hpart x x (hproper w hw i x hx) (hproper w hw i x hx) hne).mpr fun _ => Iff.rfl
  obtain ⟨i₁, hik, hxu⟩ := (mem_joined hF hu).mp (hlook ▸ hself)
  obtain ⟨rfl, rfl⟩ := hF.apart u hu w hw i₁ i x hxu hx
  refine ⟨hself, k, ⟨hk, hik, fun m hm him => ?_⟩, hlook⟩
  by_cases hkm : k < m
  · exact absurd rfl (hlater m hkm hm x ((mem_joined hF hu).mpr ⟨i₁, him, hx⟩))
  · omega

/-- The lists found are classes, those of owners with ties matching the connections of their indexes, exactly when keys are apart and
the ties settled. -/
theorem classes_iff (hF : F.WellMade) (hconn : ∀ w ∈ F.owners, Equivalence (conn w))
    (hproper : ∀ w ∈ F.owners, ∀ i, ∀ a ∈ (F.base w).getD i [], proper a)
    (hmarks : ∀ w ∈ F.owners, ∀ i < (F.base w).length, marks w i ≠ [] ∧ marks w i ⊆ (F.base w).getD i [])
    (hplain : ∀ w ∈ F.owners, ¬ loops w → F.ties w = [] ∧ ∀ i j, conn w i j ↔ i = j) :
    (F.Partitions proper ∧ ∀ w ∈ F.owners, loops w → F.Matches marks (conn w) w) ↔
      F.KeysApart proper conn ∧ ∀ w ∈ F.owners, loops w → Settled (F.ties w) (conn w) (F.base w).length := by
  constructor
  · rintro ⟨hpart, hmatches⟩
    -- owners without ties have classes that match as well
    have hall : ∀ w ∈ F.owners, F.Matches marks (conn w) w := by
      intro w hw
      by_cases hloop : loops w
      · exact hmatches w hw hloop
      · obtain ⟨hties, heq⟩ := hplain w hw hloop
        intro i hi j hj x hx y hy
        have hxi := (hmarks w hw i hi).2 hx
        have hyj := (hmarks w hw j hj).2 hy
        obtain ⟨-, k, hk, hlook⟩ := look_eq hF hproper hpart hw hxi
        have hik : i = k := leads_nil.mp (hties ▸ hk.2.1)
        rw [hlook, mem_joined hF hw, heq, hties, ← hik]
        constructor
        · rintro ⟨j₁, hji, hyj₁⟩
          rw [← leads_nil.mp hji]
          exact (hF.apart w hw w hw j j₁ y hyj hyj₁).2
        · exact fun hji => ⟨j, leads_nil.mpr hji, hyj⟩
    have hmark : ∀ w ∈ F.owners, ∀ i, i < (F.base w).length → ∃ e ∈ marks w i, e ∈ (F.base w).getD i [] := by
      intro w hw i hi
      obtain ⟨e, he⟩ := exists_mem_of_ne_nil _ (hmarks w hw i hi).1
      exact ⟨e, he, (hmarks w hw i hi).2 he⟩
    constructor
    · intro x hx w hw j c hc hkey
      obtain ⟨hself, k, hk, hlook⟩ := look_eq hF hproper hpart hw hc
      have hxx : x ∈ F.look (F.key x) := (hpart x x hx hx (hkey ▸ ne_nil_of_mem hself)).mpr fun _ => Iff.rfl
      have hxk : x ∈ (F.joined w).getD k [] := by rwa [hkey, hlook] at hxx
      obtain ⟨i, hik, hxi⟩ := (mem_joined hF hw).mp hxk
      obtain ⟨e, he, hei⟩ := hmark w hw i (lt_of_mem_getD hxi)
      obtain ⟨e', he', hej⟩ := hmark w hw j (lt_of_mem_getD hc)
      have hin : e ∈ F.look (F.key x) := by
        rw [hkey, hlook]
        exact (mem_joined hF hw).mpr ⟨i, hik, hei⟩
      have hsame := (hpart x e hx (hproper w hw i e hei) (ne_nil_of_mem hxx)).mp hin
      have hin' : e' ∈ F.look (F.key e) := by
        rw [← hsame, hkey, hlook]
        exact (mem_joined hF hw).mpr ⟨j, hk.2.1, hej⟩
      have hji := (hall w hw i (lt_of_mem_getD hxi) j (lt_of_mem_getD hc) e he e' he').mp hin'
      exact ⟨i, hxi, (hconn w hw).symm hji⟩
    · intro w hw _
      refine (settled_iff (hconn w hw)).mpr fun i hi k hk j hj => ?_
      obtain ⟨e, he, hei⟩ := hmark w hw i hi
      obtain ⟨e', he', hej⟩ := hmark w hw j hj
      obtain ⟨-, m, hm, hlook⟩ := look_eq hF hproper hpart hw hei
      have hkm := hm.2.2 k hk.1 hk.2.1
      have hmk := hk.2.2 m hm.1 hm.2.1
      obtain rfl : m = k := by omega
      rw [← hall w hw i hi j hj e he e' he', hlook, mem_joined hF hw]
      constructor
      · exact fun hl => ⟨j, hl, hej⟩
      · rintro ⟨j₁, hl, hej₁⟩
        rwa [(hF.apart w hw w hw j j₁ e' hej hej₁).2]
  · rintro ⟨hkeys, hloops⟩
    have hsettled : ∀ w ∈ F.owners, Settled (F.ties w) (conn w) (F.base w).length := by
      intro w hw
      by_cases hloop : loops w
      · exact hloops w hw hloop
      · obtain ⟨hties, heq⟩ := hplain w hw hloop
        rw [hties]
        exact settled_nil heq _
    have hlook : ∀ w ∈ F.owners, ∀ i x, x ∈ (F.base w).getD i [] →
        ∀ y, y ∈ F.look (F.key x) ↔ ∃ j, conn w j i ∧ y ∈ (F.base w).getD j [] :=
      fun w hw i x hx y => mem_look hF hconn hproper hkeys hsettled hw hx
    -- whatever has something found for it is in a list
    have hlisted : ∀ x, proper x → F.look (F.key x) ≠ [] → ∃ w ∈ F.owners, ∃ i, x ∈ (F.base w).getD i [] := by
      intro x hx hne
      obtain ⟨w, hw, j, c, hc, hkey⟩ := exists_of_look hne
      obtain ⟨j₁, -, hc⟩ := (mem_joined hF hw).mp hc
      obtain ⟨i, hxi, -⟩ := hkeys x hx w hw j₁ c hc hkey.symm
      exact ⟨w, hw, i, hxi⟩
    constructor
    · intro x y hx hy hne
      obtain ⟨w, hw, i, hxi⟩ := hlisted x hx hne
      constructor
      · intro hyx z
        obtain ⟨j, hji, hyj⟩ := (hlook w hw i x hxi y).mp hyx
        rw [hlook w hw i x hxi, hlook w hw j y hyj]
        refine exists_congr fun k => and_congr_left fun _ => ?_
        exact ⟨fun h => (hconn w hw).trans h ((hconn w hw).symm hji), fun h => (hconn w hw).trans h hji⟩
      · intro hsame
        have hxy := (hsame x).mp ((hlook w hw i x hxi x).mpr ⟨i, (hconn w hw).refl i, hxi⟩)
        obtain ⟨u, hu, j, hyj⟩ := hlisted y hy (ne_nil_of_mem hxy)
        exact (hsame y).mpr ((hlook u hu j y hyj y).mpr ⟨j, (hconn u hu).refl j, hyj⟩)
    · intro w hw _ i hi j hj x hx y hy
      have hyj := (hmarks w hw j hj).2 hy
      rw [hlook w hw i x ((hmarks w hw i hi).2 hx)]
      constructor
      · rintro ⟨j₁, hji, hyj₁⟩
        rwa [(hF.apart w hw w hw j j₁ y hyj hyj₁).2]
      · exact fun hji => ⟨j, hji, hyj⟩

end Classes

end JoinedFamily

end Metadef
