import Mathlib.Algebra.BigOperators.Group.List.Lemmas
import Mathlib.Algebra.BigOperators.Ring.List
import Mathlib.Tactic.Linarith

/-!
# Products of signed words

The product of signed words of 64 bits, worked out one word at a time. The product in words is the exact one as long as every
partial product fits into a word, and a quotient of the largest or the smallest word tells whether the next one does.
-/

namespace Metadef

open List

namespace SignedProduct

/-! ## Words -/

/-- An integer that a signed word of 64 bits can hold. -/
def Fits (x : Int) : Prop := -2 ^ 63 ≤ x ∧ x < 2 ^ 63

instance : DecidablePred Fits := fun _ => inferInstanceAs (Decidable (_ ∧ _))

theorem fits_toInt (a : Int64) : Fits a.toInt := ⟨a.le_toInt, a.toInt_lt⟩

theorem toInt_mul_of_fits {a b : Int64} (h : Fits (a.toInt * b.toInt)) : (a * b).toInt = a.toInt * b.toInt := by
  rw [Int64.toInt_mul]
  exact Int.bmod_eq_of_le h.1 h.2

theorem toInt_ofInt_of_fits {x : Int} (h : Fits x) : (Int64.ofInt x).toInt = x := by
  rw [Int64.toInt_ofInt]
  exact Int.bmod_eq_of_le h.1 h.2

/-! ## Quotients -/

variable {m a b : Int}

theorem tdiv_lt_iff (hm : 0 ≤ m) (hb : 0 < b) : m.tdiv b < a ↔ m < a * b := by
  rw [Int.tdiv_eq_ediv_of_nonneg hm, Int.ediv_lt_iff_lt_mul hb]

theorem lt_tdiv_iff (hm : m ≤ 0) (hb : 0 < b) : a < m.tdiv b ↔ a * b < m := by
  have hneg := tdiv_lt_iff (a := -a) (neg_nonneg.mpr hm) hb
  rw [Int.neg_tdiv, Int.neg_mul] at hneg
  omega

theorem lt_tdiv_iff_of_neg (hm : 0 ≤ m) (hb : b < 0) : a < m.tdiv b ↔ m < a * b := by
  have hneg := tdiv_lt_iff (a := -a) hm (neg_pos.mpr hb)
  rw [Int.tdiv_neg, Int.neg_mul_neg] at hneg
  omega

theorem toInt_maxValue_div (a : Int64) : (Int64.maxValue / a).toInt = (2 ^ 63 - 1 : Int).tdiv a.toInt :=
  Int64.toInt_div_of_ne_left _ _ (by decide)

theorem toInt_minValue_div {a : Int64} (ha : 0 < a.toInt) : (Int64.minValue / a).toInt = (-2 ^ 63 : Int).tdiv a.toInt :=
  Int64.toInt_div_of_ne_right _ _ (by rintro rfl; simp at ha)

/-! ## Partial products -/

/-- The exact product. -/
def exact (ds : List Int64) : Int := (ds.map Int64.toInt).prod

@[simp] theorem exact_nil : exact [] = 1 := rfl

@[simp] theorem exact_cons (d : Int64) (ds : List Int64) : exact (d :: ds) = d.toInt * exact ds := by simp [exact]

@[simp] theorem exact_append (ds ds' : List Int64) : exact (ds ++ ds') = exact ds * exact ds' := by simp [exact]

/-- Every product that is met while a value is multiplied by words fits. -/
def Stays (s : Int) : List Int64 → Prop
  | [] => True
  | d :: ds => Fits (s * d.toInt) ∧ Stays (s * d.toInt) ds

instance decidableStays : (s : Int) → (ds : List Int64) → Decidable (Stays s ds)
  | _, [] => inferInstanceAs (Decidable True)
  | s, d :: ds =>
    have := decidableStays (s * d.toInt) ds
    inferInstanceAs (Decidable (_ ∧ _))

/-- Words can be multiplied: the product of every first few of them fits. -/
def Multiplies (ds : List Int64) : Prop := ∀ p, p <+: ds → Fits (exact p)

variable {s : Int} {ds : List Int64}

theorem stays_iff_before (hs : Fits s) : Stays s ds ↔ ∀ p, p <+: ds → Fits (s * exact p) := by
  induction ds generalizing s with
  | nil => simp [Stays, hs]
  | cons d ds ih =>
    constructor
    · rintro ⟨hd, hds⟩ p hp
      rcases prefix_cons_iff.mp hp with rfl | ⟨q, rfl, hq⟩
      · simpa using hs
      · rw [exact_cons, ← mul_assoc]
        exact (ih hd).mp hds q hq
    · intro h
      have hd : Fits (s * d.toInt) := by simpa using h [d] (prefix_cons_iff.mpr (.inr ⟨[], rfl, nil_prefix⟩))
      refine ⟨hd, (ih hd).mpr fun q hq => ?_⟩
      rw [mul_assoc, ← exact_cons]
      exact h (d :: q) (prefix_cons_iff.mpr (.inr ⟨q, rfl, hq⟩))

theorem multiplies_iff_stays : Multiplies ds ↔ Stays 1 ds := by
  rw [stays_iff_before (by decide)]
  simp only [one_mul, Multiplies]

instance : DecidablePred Multiplies := fun _ => decidable_of_iff _ multiplies_iff_stays.symm

theorem fits_of_stays (hs : Fits s) (h : Stays s ds) : Fits (s * exact ds) :=
  (stays_iff_before hs).mp h ds (prefix_refl ds)

/-- Positive factors only make a positive product larger, so every product on the way fits when the last one does. -/
theorem stays_iff_of_pos (hs : 0 < s) (hds : ∀ d ∈ ds, 0 < d.toInt) : Fits (s * exact ds) ↔ Fits s ∧ Stays s ds := by
  constructor
  · intro h
    induction ds generalizing s with
    | nil => exact ⟨by simpa using h, trivial⟩
    | cons d ds ih =>
      have hd : 0 < d.toInt := hds d mem_cons_self
      rw [exact_cons, ← mul_assoc] at h
      obtain ⟨hfit, hstay⟩ := ih (mul_pos hs hd) (fun d' hd' => hds d' (mem_cons_of_mem d hd')) h
      have hle : s ≤ s * d.toInt := le_mul_of_one_le_right hs.le hd
      exact ⟨⟨by omega, lt_of_le_of_lt hle hfit.2⟩, hfit, hstay⟩
  · rintro ⟨hfit, hstay⟩
    exact fits_of_stays hfit hstay

theorem exact_pos (hds : ∀ d ∈ ds, 0 < d.toInt) : 0 < exact ds := by
  induction ds with
  | nil => decide
  | cons d ds ih =>
    rw [exact_cons]
    exact mul_pos (hds d mem_cons_self) (ih fun d' hd' => hds d' (mem_cons_of_mem d hd'))

/-- A product that leaves the words is not brought back by more factors, unless one of them is zero. -/
theorem le_natAbs_exact (h : ¬Multiplies ds) (h0 : exact ds ≠ 0) : 2 ^ 63 ≤ (exact ds).natAbs := by
  obtain ⟨p, ⟨q, rfl⟩, hp⟩ : ∃ p, p <+: ds ∧ ¬Fits (exact p) := by simpa [Multiplies] using h
  rw [exact_append] at h0 ⊢
  have hq : 1 ≤ (exact q).natAbs := Int.natAbs_pos.mpr (right_ne_zero_of_mul h0)
  have hp' : 2 ^ 63 ≤ (exact p).natAbs := by
    unfold Fits at hp
    omega
  rw [Int.natAbs_mul]
  exact hp'.trans (Nat.le_mul_of_pos_right _ hq)

end SignedProduct

end Metadef
