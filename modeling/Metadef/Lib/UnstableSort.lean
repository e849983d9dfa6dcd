import Mathlib.Data.List.Nodup
import Mathlib.Data.List.Pairwise
import Mathlib.Data.List.Perm.Basic
import Mathlib.Order.Lattice

/-!
# Sorts that are not stable

A sort by falling keys that may leave items of one key in any order. The items with a property keep their order under every
such sort exactly when their keys fall already.
-/

namespace Metadef

open Bool

/-- A sort by falling keys. -/
structure UnstableSort {α κ : Type} [LT κ] (key : α → κ) where
  sort : List α → List α
  perm : ∀ l, (sort l).Perm l
  falling : ∀ l, (sort l).Pairwise fun a b => ¬ key a < key b

namespace UnstableSort

variable {α κ : Type} [LinearOrder κ] {key : α → κ} {l l' : List α}

/-- Falling keys that are distinct settle the order. -/
theorem eq_of_falling (hperm : l.Perm l') (hkeys : ∀ a ∈ l', ∀ b ∈ l', key a = key b → a = b)
    (hl : l.Pairwise fun a b => ¬ key a < key b) (hl' : l'.Pairwise fun a b => ¬ key a < key b) : l = l' := by
  refine List.Perm.eq_of_pairwise ?_ hl hl' hperm
  intro a b ha hb hab hba
  exact hkeys a (hperm.mem_iff.mp ha) b hb (le_antisymm (not_lt.mp hba) (not_lt.mp hab))

/-! ## Sorts that settle the order of items of one key -/

/-- Falling keys, items of one key in the order of a rank. -/
def before (key : α → κ) (rank : α → α → Bool) (a b : α) : Bool := key b < key a || (key a = key b && rank a b)

section Ranked

variable {rank : α → α → Bool}

theorem before_trans (hrank : ∀ a b c, rank a b → rank b c → rank a c) (a b c : α) (hab : before key rank a b)
    (hbc : before key rank b c) : before key rank a c := by
  simp only [before, or_eq_true, and_eq_true, decide_eq_true_eq] at *
  obtain hlt | ⟨heq, hr⟩ := hab
  · obtain hlt' | ⟨heq', -⟩ := hbc
    · exact .inl (lt_trans hlt' hlt)
    · exact .inl (heq' ▸ hlt)
  · obtain hlt' | ⟨heq', hr'⟩ := hbc
    · exact .inl (heq ▸ hlt')
    · exact .inr ⟨heq.trans heq', hrank a b c hr hr'⟩

theorem before_total (hrank : ∀ a b, rank a b || rank b a) (a b : α) : before key rank a b || before key rank b a := by
  have hr := hrank a b
  simp only [before, or_eq_true, and_eq_true, decide_eq_true_eq] at *
  rcases lt_trichotomy (key a) (key b) with hlt | heq | hlt
  · exact .inr (.inl hlt)
  · exact hr.imp (fun hr => .inr ⟨heq, hr⟩) fun hr => .inr ⟨heq.symm, hr⟩
  · exact .inl (.inl hlt)

theorem not_lt_of_before {a b : α} (hab : before key rank a b) : ¬ key a < key b := by
  simp only [before, or_eq_true, and_eq_true, decide_eq_true_eq] at hab
  obtain hlt | ⟨heq, -⟩ := hab
  · exact lt_asymm hlt
  · exact heq ▸ lt_irrefl _

/-- The sort that leaves items of one key in the order of a rank. -/
def ranked (rank : α → α → Bool) (trans : ∀ a b c, rank a b → rank b c → rank a c) (total : ∀ a b, rank a b || rank b a) :
    UnstableSort key where
  sort l := l.mergeSort (before key rank)
  perm l := l.mergeSort_perm _
  falling l := (List.pairwise_mergeSort (before_trans trans) (before_total total) l).imp not_lt_of_before

end Ranked

/-! ## What keeps its order -/

/-- The items with a property keep their order under every sort if and only if their keys fall already. -/
theorem kept_iff [LinearOrder α] (p : α → Bool) (l : List α) :
    (∀ s : UnstableSort key, (s.sort l).filter p = l.filter p) ↔ (l.filter p).Pairwise fun a b => key b < key a ∨ a = b := by
  constructor
  · intro hall
    have hpair : ∀ (rank : α → α → Bool) (htrans : ∀ a b c, rank a b → rank b c → rank a c)
        (htotal : ∀ a b, rank a b || rank b a), (l.filter p).Pairwise fun a b => before key rank a b := by
      intro rank htrans htotal
      rw [← hall (ranked rank htrans htotal)]
      exact (List.pairwise_mergeSort (before_trans htrans) (before_total htotal) l).filter p
    have hrising := hpair (fun a b => a ≤ b) (by simpa using fun a b c => le_trans) (by simpa using le_total)
    have hfalling := hpair (fun a b => b ≤ a) (by simpa using fun a b c hab hbc => le_trans hbc hab)
      (by simpa using fun a b => le_total b a)
    refine (hrising.and hfalling).imp ?_
    rintro a b ⟨hab, hba⟩
    simp only [before, or_eq_true, and_eq_true, decide_eq_true_eq] at hab hba
    obtain hlt | ⟨-, hle⟩ := hab
    · exact .inl hlt
    · exact hba.imp id fun hba => le_antisymm hle hba.2
  · intro hfall s
    have hperm : ((s.sort l).filter p).Perm (l.filter p) := (s.perm l).filter p
    refine eq_of_falling hperm ?_ ((s.falling l).filter p) (hfall.imp ?_)
    · have : Std.Symm fun a b : α => key a = key b → a = b := ⟨fun _ _ hab hba => (hab hba.symm).symm⟩
      have hkeys : (l.filter p).Pairwise fun a b => key a = key b → a = b := hfall.imp fun {_ _} hab heq =>
        hab.resolve_left fun hlt => absurd heq (ne_of_gt hlt)
      intro a ha b hb
      exact hkeys.forall_of_forall (fun _ _ _ => rfl) ha hb
    · rintro a b (hlt | rfl)
      · exact lt_asymm hlt
      · exact lt_irrefl _

end UnstableSort

end Metadef
