import Mathlib.Algebra.GroupWithZero.Nat
import Mathlib.Data.List.Nodup
import Mathlib.Data.List.Perm.Subperm
import Mathlib.Logic.Nontrivial.Basic

/-!
# Moving an item of a list

An item of a list without repeats is taken out and put back elsewhere. What stands before what among the others stays.
-/

namespace Metadef

open List Nat Option

namespace ListMoves

variable {α : Type} [DecidableEq α] {l s : List α} {m p u v : α} {k : Nat}

/-- Takes an item out of a list and puts it at a position of the rest. -/
def move (l : List α) (m : α) (k : Nat) : List α := (l.erase m).insertIdx k m

theorem perm_move (hm : m ∈ l) (hk : k ≤ (l.erase m).length) : (move l m k).Perm l :=
  (perm_insertIdx m _ hk).trans (perm_cons_erase hm).symm

omit [DecidableEq α] in
/-- An item put at a position stands between those in front of it and the others. -/
theorem insertIdx_split (hk : k ≤ l.length) : l.insertIdx k m = l.take k ++ m :: l.drop k := by
  induction l generalizing k with
  | nil =>
    obtain rfl : k = 0 := by simpa using hk
    rfl
  | cons a l ih =>
    cases k with
    | zero => rfl
    | succ k => simpa using ih (le_of_succ_le_succ hk)

/-- Items other than the one taken out stand in the rest as they stood. -/
theorem sublist_erase_iff (hm : m ∉ s) : s.Sublist (l.erase m) ↔ s.Sublist l := by
  constructor
  · intro hs
    exact hs.trans erase_sublist
  · intro hs
    have herase := hs.erase m
    rwa [erase_of_not_mem hm] at herase

/-- Items other than the one moved stand as they stood. -/
theorem sublist_move_iff (hl : l.Nodup) (hm : m ∉ s) (hk : k ≤ (l.erase m).length) : s.Sublist (move l m k) ↔ s.Sublist l := by
  have hnot : m ∉ l.erase m := hl.not_mem_erase
  have herase : (move l m k).erase m = l.erase m := by
    unfold move
    rw [insertIdx_split hk, erase_append_right _ (fun h => hnot (mem_of_mem_take h)), erase_cons_head,
      take_append_drop]
  rw [← sublist_erase_iff hm, herase, sublist_erase_iff hm]

/-! ## Neighbours -/

omit [DecidableEq α] in
/-- Nothing stands between two neighbours. -/
theorem not_sublist_between {a b : List α} (hl : (a ++ u :: v :: b).Nodup) (x : α) : ¬ [u, x, v].Sublist (a ++ u :: v :: b) := by
  induction a with
  | nil =>
    intro hs
    obtain ⟨hu, hv⟩ : u ∉ v :: b ∧ (v :: b).Nodup := nodup_cons.mp hl
    have hrest : [x, v].Sublist (v :: b) := (cons_sublist_cons.mp hs)
    rcases sublist_cons_iff.mp hrest with hin | ⟨r, hr, hin⟩
    · exact (nodup_cons.mp hv).1 (hin.subset (by simp))
    · obtain rfl : [v] = r := (List.cons.inj hr).2
      exact (nodup_cons.mp hv).1 (hin.subset (by simp))
  | cons c a ih =>
    intro hs
    obtain ⟨hc, hl⟩ := nodup_cons.mp hl
    rcases sublist_cons_iff.mp hs with hin | ⟨r, hr, -⟩
    · exact ih hl hin
    · obtain rfl : u = c := (List.cons.inj hr).1
      exact hc (by simp)

/-- Moved to the place of another item, an item is right in front of it. -/
theorem move_before (hp : p ∈ l) (hmp : p ≠ m) : ∃ a b, move l m ((l.erase m).idxOf p) = a ++ m :: p :: b := by
  have hlt : (l.erase m).idxOf p < (l.erase m).length := idxOf_lt_length_of_mem ((mem_erase_of_ne hmp).mpr hp)
  refine ⟨(l.erase m).take ((l.erase m).idxOf p), (l.erase m).drop ((l.erase m).idxOf p + 1), ?_⟩
  unfold move
  rw [insertIdx_split (Nat.le_of_lt hlt), drop_eq_getElem_cons hlt, getElem_idxOf]

/-- Moved behind the place of another item, an item is right behind it. -/
theorem move_behind (hp : p ∈ l) (hmp : p ≠ m) : ∃ a b, move l m ((l.erase m).idxOf p + 1) = a ++ p :: m :: b := by
  have hlt : (l.erase m).idxOf p < (l.erase m).length := idxOf_lt_length_of_mem ((mem_erase_of_ne hmp).mpr hp)
  refine ⟨(l.erase m).take ((l.erase m).idxOf p), (l.erase m).drop ((l.erase m).idxOf p + 1), ?_⟩
  unfold move
  rw [insertIdx_split hlt, take_add_one, getElem?_eq_getElem hlt, getElem_idxOf]
  simp

/-- An item put anywhere into a row of its copies makes the row longer. -/
theorem insertIdx_row {α : Type} {l m : List α} {a : α} {n k : Nat} (hk : l.length ≤ k) (hk' : k ≤ l.length + n) :
    (l ++ List.replicate n a ++ m).insertIdx k a = l ++ List.replicate (n + 1) a ++ m := by
  induction l generalizing k with
  | nil =>
    rw [length_nil, Nat.zero_add] at hk'
    rw [nil_append, nil_append]
    clear hk
    induction k generalizing n with
    | zero => rw [insertIdx_zero, replicate_succ, cons_append]
    | succ k ih =>
      obtain ⟨n, rfl⟩ := exists_eq_succ_of_ne_zero (Nat.ne_of_gt (Nat.lt_of_lt_of_le (succ_pos k) hk'))
      rw [replicate_succ, cons_append, insertIdx_succ_cons, ih (le_of_succ_le_succ hk'), replicate_succ
        (n := n + 1),
        cons_append]
  | cons b l ih =>
    rw [length_cons] at hk hk'
    obtain ⟨k, rfl⟩ := exists_eq_succ_of_ne_zero (Nat.ne_of_gt (Nat.lt_of_lt_of_le (succ_pos _) hk))
    rw [cons_append, cons_append, insertIdx_succ_cons, ih (by omega) (by omega), cons_append, cons_append]

end ListMoves

/-!
## Erasing at positions

Items stand beside marks, and those beside marks of a kind are to go. Erasing at the positions of the marks one after the other, each
from what is left, takes the right ones when there is one such mark at most: behind the first erasure the positions have moved.
-/

namespace ErasedPositions

variable {α β : Type} {p : β → Bool} {l : List α} {marks : List β}

/-- The items beside the marks of the other kind. -/
def kept (p : β → Bool) (l : List α) (marks : List β) : List α := ((l.zip marks).filter fun e => !p e.2).map Prod.fst

/-- Erases at positions, one after the other. -/
def eraseEach (l : List α) (positions : List Nat) : List α := positions.foldl (fun l i => l.eraseIdx i) l

/-- Without marks of the kind all items are kept. -/
theorem kept_eq_self (hlen : l.length = marks.length) (hnone : ∀ m ∈ marks, p m = false) : kept p l marks = l := by
  rw [kept, filter_eq_self.mpr fun e he => by rw [hnone e.2 (of_mem_zip he).2]; rfl, map_fst_zip (Nat.le_of_eq hlen)]

/-- The one item beside a mark of the kind goes. -/
theorem eraseIdx_of_single (hlen : l.length = marks.length) (hone : marks.countP p = 1) :
    ∃ i, marks.findIdxs p = [i] ∧ l.eraseIdx i = kept p l marks := by
  induction marks generalizing l with
  | nil => cases hone
  | cons m marks ih =>
    cases l with
    | nil => cases hlen
    | cons a l =>
      have hlen' : l.length = marks.length := Nat.succ.inj hlen
      rw [findIdxs_cons, findIdxs_start, kept, zip_cons_cons]
      cases hm : p m with
      | true =>
        rw [countP_cons_of_pos hm] at hone
        have hnone : ∀ b ∈ marks, p b = false := fun b hb =>
          Bool.eq_false_iff.mpr (countP_eq_zero.mp (Nat.succ.inj hone) b hb)
        refine ⟨0, ?_, ?_⟩
        · rw [if_pos rfl, findIdxs_eq_nil_iff.mpr hnone, map_nil]
        · rw [eraseIdx_cons_zero, filter_cons_of_neg (by rw [hm]; decide)]
          exact (kept_eq_self hlen' hnone).symm
      | false =>
        rw [countP_cons_of_neg (by rw [hm]; decide)] at hone
        obtain ⟨i, hi, herase⟩ := ih hlen' hone
        refine ⟨i + 1, ?_, ?_⟩
        · rw [if_neg Bool.false_ne_true, hi, map_singleton]
        · rw [eraseIdx_cons_succ, herase, filter_cons_of_pos (by rw [hm]; rfl), map_cons, kept]

/-- What stands before all positions stays. -/
theorem getElem?_eraseEach {positions : List Nat} {k : Nat} (hk : ∀ i ∈ positions, k < i) : (eraseEach l positions)[k]? =
    l[k]? := by
  induction positions generalizing l with
  | nil => rfl
  | cons i positions ih =>
    rw [eraseEach, foldl_cons]
    exact (ih fun j hj => hk j (mem_cons_of_mem i hj)).trans (getElem?_eraseIdx_of_lt (hk i mem_cons_self))

/-- Erasing at the positions of the marks keeps the right items, whatever they are, exactly when there is one mark of the kind at
most: the second has moved when its turn comes. -/
theorem eraseEach_iff [Nontrivial α] :
    (∀ l : List α, l.length = marks.length → eraseEach l (marks.findIdxs p) = kept p l marks) ↔ marks.countP p ≤ 1 := by
  constructor
  · intro hall
    by_contra hmany
    obtain ⟨a, b, hab⟩ := exists_pair_ne α
    have hlen : (marks.findIdxs p).length = marks.countP p := length_findIdxs
    have hsorted : (marks.findIdxs p).Pairwise (· < ·) := pairwise_findIdxs
    match hidx : marks.findIdxs p with
    | [] => rw [hidx] at hlen; exact hmany (by rw [← hlen]; exact Nat.zero_le _)
    | [i] => rw [hidx] at hlen; exact hmany (by rw [← hlen]; exact Nat.le_refl _)
    | i :: j :: rest =>
      rw [hidx] at hsorted
      obtain ⟨hfirst, hsecond, -⟩ : (∀ k ∈ j :: rest, i < k) ∧ (∀ k ∈ rest, j < k) ∧ rest.Pairwise (· < ·) := by
        simpa [pairwise_cons, and_assoc] using hsorted
      obtain ⟨hj, hpj⟩ := mem_findIdxs_iff_exists_getElem_pos.mp (hidx ▸ mem_cons_of_mem i mem_cons_self)
      have hij := hfirst j mem_cons_self
      -- an item of its own beside the second mark is still there
      have heq := hall ((List.replicate marks.length a).set j b) (by rw [length_set, length_replicate])
      have hstays : (eraseEach ((List.replicate marks.length a).set j b) (marks.findIdxs p))[j - 1]? = some b := by
        rw [hidx, eraseEach, foldl_cons]
        refine (getElem?_eraseEach fun k hk => ?_).trans ?_
        · rcases mem_cons.mp hk with rfl | hk
          · omega
          · exact Nat.lt_of_le_of_lt (sub_le j 1) (hsecond k hk)
        · rw [getElem?_eraseIdx_of_ge (by omega), Nat.sub_add_cancel (by omega), getElem?_set_self (by simpa using hj)]
      rw [heq] at hstays
      obtain ⟨e, he, hb⟩ := List.mem_map.mp (mem_of_getElem? hstays)
      obtain ⟨hzip, hunmarked⟩ := mem_filter.mp he
      obtain ⟨k, hk, hek⟩ := mem_iff_getElem.mp hzip
      rw [getElem_zip] at hek
      rw [← hek] at hunmarked hb
      dsimp only at hunmarked hb
      by_cases hjk : j = k
      · subst hjk
        rw [hpj] at hunmarked
        cases hunmarked
      · rw [getElem_set_ne hjk, getElem_replicate] at hb
        exact hab hb
  · intro hfew l hlen
    rcases Nat.lt_or_ge 0 (marks.countP p) with hpos | hzero
    · obtain ⟨i, hi, herase⟩ := eraseIdx_of_single (l := l) hlen (Nat.le_antisymm hfew hpos)
      rw [hi, ← herase]
      rfl
    · have hnone : ∀ m ∈ marks, p m = false := fun m hm =>
        Bool.eq_false_iff.mpr (countP_eq_zero.mp (Nat.le_zero.mp hzero) m hm)
      rw [findIdxs_eq_nil_iff.mpr hnone, kept_eq_self hlen hnone]
      rfl

end ErasedPositions

/-!
## Putting blocks into a list

Blocks are put into a list one after the other, each at a position of what there is. What is there keeps its order.
-/

namespace BlockInserts

variable {α : Type} {l : List α} {c : α}

/-- Puts a block at a position. -/
def insertBlock (l : List α) (b : Nat × List α) : List α := l.take b.1 ++ b.2 ++ l.drop b.1

/-- Puts blocks in, one after the other. -/
def insertAll (blocks : List (Nat × List α)) (l : List α) : List α := blocks.foldl insertBlock l

section Expansion

variable (block : α → Option (List α))

/-- The items that stand for themselves. -/
def kept (items : List α) : List α := items.filter fun x => block x = none

/-- What an item counts for. -/
def weight (x : α) : Nat := max 1 ((block x).getD [x]).length

variable {block} {items l₁ l₂ : List α} {x : α} {k : Nat}

end Expansion

end BlockInserts

end Metadef
