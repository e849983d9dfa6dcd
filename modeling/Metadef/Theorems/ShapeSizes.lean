import Mathlib.Data.List.TakeWhile
import Metadef.Shapes

/-!
# Sizes of shapes

The two classes of shapes count alike when no product on the way leaves the words, and the check of a tensor tells whether its data
fit its shape unless the size it works with is not the exact one.
-/

namespace Metadef

open List

open SignedProduct

/-! ## The test for overflow -/

variable {a : Int64} {dims : List Int64}

/-- The quotients tell exactly whether a product fits. -/
theorem int64MulNotOverflow_iff {b : Int64} : int64MulNotOverflow a b = true ↔ Fits (a.toInt * b.toInt) := by
  unfold int64MulNotOverflow Fits
  simp only [gt_iff_lt, Int64.lt_iff_toInt_lt, Int64.toInt_zero]
  by_cases ha : 0 < a.toInt
  · by_cases hb : 0 < b.toInt
    · have hq := tdiv_lt_iff (a := a.toInt) (m := 2 ^ 63 - 1) (by decide) hb
      have hsign := mul_pos ha hb
      simp only [if_pos ha, if_pos hb, toInt_maxValue_div, hq]
      split <;> simp <;> omega
    · have hq := lt_tdiv_iff (a := b.toInt) (m := -2 ^ 63) (by decide) ha
      have hsign := mul_nonpos_of_nonneg_of_nonpos ha.le (not_lt.mp hb)
      simp only [if_pos ha, if_neg hb, toInt_minValue_div ha, hq, mul_comm b.toInt]
      split <;> simp <;> omega
  · by_cases hb : 0 < b.toInt
    · have hq := lt_tdiv_iff (a := a.toInt) (m := -2 ^ 63) (by decide) hb
      have hsign := mul_nonpos_of_nonpos_of_nonneg (not_lt.mp ha) hb.le
      simp only [if_neg ha, if_pos hb, toInt_minValue_div hb, hq]
      split <;> simp <;> omega
    · simp only [if_neg ha, if_neg hb, toInt_maxValue_div]
      by_cases h0 : a = 0
      · simp [h0]
      · have hneg : a.toInt < 0 := by
          have hne : a.toInt ≠ 0 := fun h => h0 (Int64.toInt_inj.mp h)
          omega
        have hq := lt_tdiv_iff_of_neg (a := b.toInt) (m := 2 ^ 63 - 1) (by decide) hneg
        have hsign := mul_nonneg_of_nonpos_of_nonpos hneg.le (not_lt.mp hb)
        simp only [h0, not_false_eq_true, ne_eq, true_and, hq, mul_comm b.toInt]
        split <;> simp <;> omega

/-! ## Sizes -/

/-- The dimensions before the first that is not known. -/
def leadingDims (dims : List Int64) : List Int64 := dims.takeWhile knownDim

/-- The size that a value and dimensions come to. -/
def sizeFrom (s : Int) (dims : List Int64) : Int := if dims.all knownDim then s * exact dims else -1

section

variable {d : Int64} {dims : List Int64} {s : Int}

theorem knownDim_eq_false : knownDim d = false ↔ d = unknownDim ∨ d = unknownDimNum := by
  simp only [knownDim, Bool.and_eq_false_iff, bne_eq_false_iff_eq]

theorem leadingDims_of_known (hd : knownDim d = true) : leadingDims (d :: dims) = d :: leadingDims dims :=
    takeWhile_cons_of_pos hd

theorem leadingDims_of_not (hd : ¬knownDim d = true) : leadingDims (d :: dims) = [] := takeWhile_cons_of_neg hd

theorem leadingDims_of_all (h : dims.all knownDim = true) : leadingDims dims = dims :=
  takeWhile_eq_self_iff.mpr (all_eq_true.mp h)

theorem sizeFrom_of_known (hd : knownDim d = true) : sizeFrom s (d :: dims) = sizeFrom (s * d.toInt) dims := by
  simp only [sizeFrom, all_cons, hd, Bool.true_and, exact_cons, mul_assoc]

theorem sizeFrom_of_not (hd : ¬knownDim d = true) : sizeFrom s (d :: dims) = -1 := by simp [sizeFrom, hd]

end

namespace GeShape

variable {res : Int64} {dims : List Int64}

theorem multiply_of_stays (h : Stays res.toInt (leadingDims dims)) :
    ∃ r, multiply res dims = some r ∧ r.toInt = sizeFrom res.toInt dims := by
  induction dims generalizing res with
  | nil => exact ⟨res, rfl, by simp [sizeFrom]⟩
  | cons d dims ih =>
    by_cases hd : knownDim d = true
    · rw [leadingDims_of_known hd] at h
      obtain ⟨hfit, hstay⟩ := h
      have hmul := toInt_mul_of_fits hfit
      obtain ⟨r, hr, hsize⟩ := ih (hmul ▸ hstay)
      refine ⟨r, ?_, ?_⟩
      · rw [multiply, if_neg fun h0 => by simp [knownDim_eq_false.mpr h0] at hd, if_pos hfit, hr]
      · rw [hsize, hmul, sizeFrom_of_known hd]
    · refine ⟨unknownDim, ?_, (sizeFrom_of_not hd).symm⟩
      rw [multiply, if_pos (knownDim_eq_false.mp (Bool.eq_false_of_not_eq_true hd))]

theorem multiply_of_not_stays (h : ¬Stays res.toInt (leadingDims dims)) : multiply res dims = none := by
  induction dims generalizing res with
  | nil => exact absurd trivial h
  | cons d dims ih =>
    by_cases hd : knownDim d = true
    · rw [leadingDims_of_known hd] at h
      rw [multiply, if_neg fun h0 => by simp [knownDim_eq_false.mpr h0] at hd]
      by_cases hfit : Fits (res.toInt * d.toInt)
      · rw [if_pos hfit]
        refine ih fun hstay => h ⟨hfit, ?_⟩
        rwa [toInt_mul_of_fits hfit] at hstay
      · rw [if_neg hfit]
    · rw [leadingDims_of_not hd] at h
      exact absurd trivial h

end GeShape

namespace Shape

variable {size : Int64} {dims : List Int64}

theorem multiply_of_stays (h : Stays size.toInt (leadingDims dims)) : (multiply size dims).toInt = sizeFrom size.toInt dims := by
  induction dims generalizing size with
  | nil => simp [multiply, sizeFrom]
  | cons d dims ih =>
    by_cases hd : knownDim d = true
    · rw [leadingDims_of_known hd] at h
      obtain ⟨hfit, hstay⟩ := h
      have hmul := toInt_mul_of_fits hfit
      rw [multiply, if_neg fun h0 => by simp [knownDim_eq_false.mpr h0.symm] at hd,
        if_neg (by simpa using int64MulNotOverflow_iff.mpr hfit), ih (hmul ▸ hstay), hmul, sizeFrom_of_known hd]
    · rw [multiply, if_pos (knownDim_eq_false.mp (Bool.eq_false_of_not_eq_true hd)).symm, sizeFrom_of_not hd]
      rfl

theorem multiply_of_not_stays (h : ¬Stays size.toInt (leadingDims dims)) : multiply size dims = 0 := by
  induction dims generalizing size with
  | nil => exact absurd trivial h
  | cons d dims ih =>
    by_cases hd : knownDim d = true
    · rw [leadingDims_of_known hd] at h
      rw [multiply, if_neg fun h0 => by simp [knownDim_eq_false.mpr h0.symm] at hd]
      by_cases hfit : Fits (size.toInt * d.toInt)
      · rw [if_neg (by simpa using int64MulNotOverflow_iff.mpr hfit)]
        refine ih fun hstay => h ⟨hfit, ?_⟩
        rwa [toInt_mul_of_fits hfit] at hstay
      · rw [if_pos (by simpa using fun h1 => hfit (int64MulNotOverflow_iff.mp h1))]
    · rw [leadingDims_of_not hd] at h
      exact absurd trivial h

end Shape

open Shape

/-! ## Both classes -/

/-- A shape has one size, counted inside the graph or outside of it, and it keeps the size when it is taken into the graph. -/
structure CountsAlike (dims : List Int64) : Prop where
  given : (GeShape.mk dims).getShapeSize = some (Shape.make dims).getShapeSize
  taken_in : (Shape.mk dims).toGeShape.getShapeSize = some (Shape.mk dims).getShapeSize
  taken_out : (GeShape.mk dims).getShapeSize = some (GeShape.mk dims).toShape.getShapeSize

theorem GeShape.getShapeSize_of_multiplies (h0 : dims ≠ []) (h : Multiplies (leadingDims dims)) :
    ∃ r, (GeShape.mk dims).getShapeSize = some r ∧ r.toInt = sizeFrom 1 dims := by
  rw [getShapeSize, if_neg (by simpa using h0)]
  exact multiply_of_stays (multiplies_iff_stays.mp h)

theorem GeShape.getShapeSize_of_not (h : ¬Multiplies (leadingDims dims)) : (GeShape.mk dims).getShapeSize = none := by
  have h0 : dims ≠ [] := by
    rintro rfl
    exact h (multiplies_iff_stays.mpr trivial)
  rw [getShapeSize, if_neg (by simpa using h0)]
  exact multiply_of_not_stays fun hs => h (multiplies_iff_stays.mpr hs)

theorem getShapeSize_of_multiplies (h0 : dims ≠ []) (h : Multiplies (leadingDims dims)) :
    (Shape.mk dims).getShapeSize.toInt = sizeFrom 1 dims := by
  rw [getShapeSize, if_neg (by simpa using h0)]
  exact multiply_of_stays (multiplies_iff_stays.mp h)

theorem getShapeSize_of_not (h : ¬Multiplies (leadingDims dims)) : (Shape.mk dims).getShapeSize = 0 := by
  rw [getShapeSize]
  split
  · rfl
  · exact multiply_of_not_stays fun hs => h (multiplies_iff_stays.mpr hs)

/-- An unknown number of dimensions makes the size unknown, whatever else there is. -/
theorem getShapeSize_of_unknown (h : unknownDimNum ∈ dims) : (Shape.make dims).getShapeSize = -1 := by
  rw [make, if_pos h]
  rfl

theorem make_of_not_mem (h : unknownDimNum ∉ dims) : Shape.make dims = ⟨dims⟩ := by rw [make, if_neg h]

/-- The shape of a tensor counts the same inside and outside of the graph exactly when the products of its dimensions up to the
first unknown one stay in the words. -/
theorem countsAlike_iff (dims : List Int64) : CountsAlike dims ↔ Multiplies (leadingDims dims) := by
  constructor
  · intro h
    by_contra hnot
    simpa [GeShape.getShapeSize_of_not hnot] using h.given
  · intro h
    have hraw : (GeShape.mk dims).getShapeSize = some (Shape.mk dims).getShapeSize := by
      by_cases h0 : dims = []
      · rw [h0]; rfl
      · obtain ⟨r, hr, hsize⟩ := GeShape.getShapeSize_of_multiplies h0 h
        rw [hr, Int64.toInt_inj.mp (hsize.trans (getShapeSize_of_multiplies h0 h).symm)]
    have hgiven : (GeShape.mk dims).getShapeSize = some (Shape.make dims).getShapeSize := by
      by_cases hmem : unknownDimNum ∈ dims
      · obtain ⟨r, hr, hsize⟩ := GeShape.getShapeSize_of_multiplies (ne_nil_of_mem hmem) h
        have hall : ¬dims.all knownDim = true := fun hall => absurd (all_eq_true.mp hall _ hmem) (by decide)
        rw [hr, getShapeSize_of_unknown hmem]
        rw [sizeFrom, if_neg hall] at hsize
        exact congrArg some (Int64.toInt_inj.mp hsize)
      · rw [make_of_not_mem hmem, hraw]
    exact ⟨hgiven, hraw, hgiven⟩

/-- Two dimensions whose product leaves the words have a size outside of the graph and none inside. -/
theorem countsAlike_false : ¬CountsAlike [3037000500, 3037000500] := fun h => absurd h.given (by decide +kernel)

/-! ## Tensors -/

namespace TensorImpl

variable {t : TensorImpl} {len : UInt32}

/-- The check in exact numbers: the size is read as an unsigned word. -/
theorem isValid_eq (hs : t.dataType ≠ .string) (hlen : getDataTypeLength t.dataType = some len) : t.isValid = true ↔
      (t.shape.toShape.getShapeSize.toUInt64.toNat = 0 ∧ t.data.length = len.toNat) ∨
        2 ^ 64 ≤ t.shape.toShape.getShapeSize.toUInt64.toNat * len.toNat ∨
        t.shape.toShape.getShapeSize.toUInt64.toNat * len.toNat = t.data.length := by
  obtain ⟨hpos, -⟩ := getDataTypeLength_bounds hlen
  have hsize := t.size_lt
  have hlen64 : len.toUInt64.toNat = len.toNat := UInt32.toNat_toUInt64 len
  have hdata : t.getSize.toNat = t.data.length := (UInt64.toNat_ofNat' ..).trans (Nat.mod_eq_of_lt hsize)
  generalize hU : t.shape.toShape.getShapeSize.toUInt64 = U
  have h0 : len ≠ 0 := fun h => by simp [h] at hpos
  have hzero : U = 0 ↔ U.toNat = 0 := UInt64.toNat_inj.symm
  have hlength : t.getSize = len.toUInt64 ↔ t.data.length = len.toNat := by rw [← UInt64.toNat_inj, hdata, hlen64]
  have hquot : UInt64.ofNat (2 ^ 64 - 1) / len.toUInt64 < U ↔ 2 ^ 64 ≤ U.toNat * len.toNat := by
    rw [UInt64.lt_iff_toNat_lt, UInt64.toNat_div, hlen64, Nat.div_lt_iff_lt_mul (by omega)]
    change 2 ^ 64 - 1 < _ ↔ _
    omega
  have hprod : ¬2 ^ 64 ≤ U.toNat * len.toNat → (U * len.toUInt64 = t.getSize ↔ U.toNat * len.toNat = t.data.length) := by
    intro hbig
    rw [← UInt64.toNat_inj, UInt64.toNat_mul, hlen64, hdata, Nat.mod_eq_of_lt (by omega)]
  simp only [isValid, hlen, hU, hs, ne_eq, not_false_eq_true, if_true, h0, true_and, hquot, hzero, hlength]
  by_cases hbig : 2 ^ 64 ≤ U.toNat * len.toNat
  · simp only [if_pos hbig, ite_self, true_iff]
    exact .inr (.inl hbig)
  · simp only [if_neg hbig, hprod hbig]
    have hskip : U.toNat = 0 → U.toNat * len.toNat = 0 := fun h => by rw [h, zero_mul]
    split
    · split <;> simp <;> omega
    · simp
      omega

/-- A tensor whose data are as many as its shape asks for, or whose shape does not say. -/
def Consistent (t : TensorImpl) (len : UInt32) : Prop :=
  (∃ d ∈ t.shape.dims, knownDim d = false) ∨ exact t.shape.dims * len.toNat = t.data.length

end TensorImpl

/-- The dimensions, the length of an element and the number of bytes on which the check does not go wrong. -/
structure SizeJudged (dims : List Int64) (len n : Nat) : Prop where
  /-- A scalar has the size of an empty shape. -/
  scalar : dims = [] → n ≠ 0
  /-- An unknown size is read as the largest one, which overflows unless the elements are single bytes. -/
  unknown : unknownDimNum ∈ dims ∨ unknownDim ∈ dims ∧ Multiplies (leadingDims dims) → 1 < len ∨ n = 2 ^ 64 - 1
  /-- An overflow before an unknown dimension hides it. -/
  hidden : unknownDimNum ∉ dims → unknownDim ∈ dims → ¬Multiplies (leadingDims dims) → n = 0 ∨ n = len
  /-- An empty shape has the size of a scalar. -/
  empty : dims.all knownDim = true → exact dims = 0 → n ≠ len
  /-- A size in bytes that overflows passes. -/
  large : dims.all knownDim = true → Multiplies dims → 0 < exact dims → exact dims * len < 2 ^ 64
  /-- A negative size is read as a large one. -/
  negative : dims.all knownDim = true → Multiplies dims → exact dims < 0 → len = 1 ∧ (n : Int) ≠ 2 ^ 64 + exact dims
  /-- A size that overflows is taken for none. -/
  overflown : dims.all knownDim = true → ¬Multiplies dims → exact dims ≠ 0 → n ≠ 0 ∧ n ≠ len ∧ exact dims * len ≠ n

/-! ### The size as it is read -/

theorem toNat_toUInt64_of_nonneg (ha : 0 ≤ a.toInt) : (a.toUInt64.toNat : Int) = a.toInt := by
  rw [Int64.toNat_toUInt64_of_le (Int64.le_iff_toInt_le.mpr ha)]
  exact Int.toNat_of_nonneg ha

theorem toNat_toUInt64_of_neg (ha : a.toInt < 0) : (a.toUInt64.toNat : Int) = 2 ^ 64 + a.toInt := by
  have hlt := a.toUInt64.toNat_lt
  have h : a.toInt = if 2 * a.toUInt64.toNat < 2 ^ 64 then (a.toUInt64.toNat : Int) else a.toUInt64.toNat - (2 ^ 64 : Nat) := rfl
  split at h <;> omega

section

variable {dims : List Int64} {u len n : Nat}

/-- The verdict on a size, read as an unsigned word. -/
def Accepted (u len n : Nat) : Prop := (u = 0 ∧ n = len) ∨ 2 ^ 64 ≤ u * len ∨ u * len = n

theorem accepted_zero (hlen : 1 ≤ len) : Accepted 0 len n ↔ n = len ∨ n = 0 := by
  unfold Accepted
  omega

theorem all_known_iff : dims.all knownDim = true ↔ unknownDim ∉ dims ∧ unknownDimNum ∉ dims := by
  rw [all_eq_true]
  constructor
  · exact fun h => ⟨fun hmem => absurd (h _ hmem) (by decide), fun hmem => absurd (h _ hmem) (by decide)⟩
  · rintro ⟨h1, h2⟩ d hd
    by_contra hnot
    rcases knownDim_eq_false.mp (Bool.eq_false_of_not_eq_true hnot) with rfl | rfl
    · exact h1 hd
    · exact h2 hd

theorem judged_of_unknown (hlen : 1 ≤ len) (h : unknownDimNum ∈ dims ∨ unknownDim ∈ dims ∧ Multiplies (leadingDims dims)) :
    Accepted (2 ^ 64 - 1) len n ↔ SizeJudged dims len n := by
  have hall : ¬dims.all knownDim = true := by
    rw [all_known_iff]
    tauto
  have hne : dims ≠ [] := by
    rintro rfl
    simp at h
  constructor
  · intro hacc
    refine ⟨fun h0 => absurd h0 hne, fun _ => ?_, fun h1 h2 h3 => ?_, fun h0 => absurd h0 hall, fun h0 => absurd h0 hall,
      fun h0 => absurd h0 hall, fun h0 => absurd h0 hall⟩
    · unfold Accepted at hacc
      omega
    · tauto
  · intro hj
    have := hj.unknown h
    unfold Accepted
    omega

theorem judged_of_hidden (hlen : 1 ≤ len) (h : unknownDimNum ∉ dims) (h' : unknownDim ∈ dims)
    (hm : ¬Multiplies (leadingDims dims)) :
    Accepted 0 len n ↔ SizeJudged dims len n := by
  have hall : ¬dims.all knownDim = true := fun hall => (all_known_iff.mp hall).1 h'
  rw [accepted_zero hlen]
  constructor
  · intro hacc
    refine ⟨fun h0 => by simp [h0] at h', fun hu => ?_, fun _ _ _ => hacc.symm, fun h0 => absurd h0 hall, fun h0 => absurd h0 hall,
      fun h0 => absurd h0 hall, fun h0 => absurd h0 hall⟩
    tauto
  · intro hj
    exact (hj.hidden h h' hm).symm

/-- What is left to be judged when all dimensions are known. -/
theorem judged_iff_of_known (hall : dims.all knownDim = true) : SizeJudged dims len n ↔ (dims = [] → n ≠ 0) ∧
    (exact dims = 0 → n ≠ len) ∧
    (Multiplies dims → (0 < exact dims → exact dims * len < 2 ^ 64) ∧
      (exact dims < 0 → len = 1 ∧ (n : Int) ≠ 2 ^ 64 + exact dims)) ∧
    (¬Multiplies dims → exact dims ≠ 0 → n ≠ 0 ∧ n ≠ len ∧ exact dims * len ≠ n) := by
  have hknown := all_known_iff.mp hall
  constructor
  · rintro ⟨h1, -, -, h2, h3, h4, h5⟩
    exact ⟨h1, h2 hall, fun hm => ⟨h3 hall hm, h4 hall hm⟩, h5 hall⟩
  · rintro ⟨h1, h2, h3, h4⟩
    exact ⟨h1, fun hu => by tauto, fun _ hu => absurd hu hknown.1, fun _ => h2, fun _ hm => (h3 hm).1, fun _ hm => (h3 hm).2,
      fun _ => h4⟩

theorem judged_of_scalar (hlen : 1 ≤ len) (hlen' : len ≤ 16) : (Accepted 0 len n ↔ exact [] * len = n) ↔ SizeJudged [] len n := by
  have hm : Multiplies [] := multiplies_iff_stays.mpr trivial
  rw [judged_iff_of_known rfl, accepted_zero hlen]
  simp only [exact_nil, hm, eq_self, true_implies, not_true_eq_false, false_implies, one_ne_zero, zero_lt_one,
    not_lt.mpr zero_le_one, and_true, true_and]
  omega

theorem judged_of_overflow (hall : dims.all knownDim = true) (hlen : 1 ≤ len) (hlen' : len ≤ 16) (hm : ¬Multiplies dims) :
    (Accepted 0 len n ↔ exact dims * len = n) ↔ SizeJudged dims len n := by
  have hne : dims ≠ [] := by
    rintro rfl
    exact hm (multiplies_iff_stays.mpr trivial)
  rw [judged_iff_of_known hall, accepted_zero hlen]
  simp only [hne, hm, false_implies, true_and, not_false_eq_true, forall_const]
  by_cases h0 : exact dims = 0
  · simp only [h0, forall_const, ne_eq, not_true_eq_false, false_implies, and_true, zero_mul]
    omega
  · have hlarge : 2 ^ 63 ≤ (exact dims * len).natAbs := by
      rw [Int.natAbs_mul]
      exact (le_natAbs_exact hm h0).trans (Nat.le_mul_of_pos_right _ (by omega))
    simp only [h0, ne_eq, not_false_eq_true, false_implies, forall_const, true_and]
    omega

/-- A product that fits is read as it is, and as its complement when it is negative. -/
theorem judged_of_product (hall : dims.all knownDim = true) (hne : dims ≠ []) (hlen : 1 ≤ len) (hn : n < 2 ^ 64)
    (hm : Multiplies dims)
    (hpos : 0 ≤ exact dims → (u : Int) = exact dims) (hneg : exact dims < 0 → (u : Int) = 2 ^ 64 + exact dims) :
    (Accepted u len n ↔ exact dims * len = n) ↔ SizeJudged dims len n := by
  have hfit : Fits (exact dims) := hm dims (prefix_refl dims)
  rw [judged_iff_of_known hall]
  simp only [hne, hm, false_implies, true_and, not_true_eq_false, and_true, forall_const]
  rcases lt_trichotomy (exact dims) 0 with h | h | h
  · have hu := hneg h
    have hlt : exact dims * len < 0 := mul_neg_of_neg_of_pos h (by omega)
    simp only [h, h.ne, h.not_gt, false_implies, true_and, forall_const]
    unfold Fits at hfit
    by_cases h1 : len = 1
    · subst h1
      unfold Accepted
      omega
    · have hbig : 2 ^ 64 ≤ u * len := by
        have : 2 ^ 63 ≤ u := by omega
        calc 2 ^ 64 = 2 ^ 63 * 2 := by norm_num
          _ ≤ u * len := Nat.mul_le_mul this (by omega)
      simp only [h1, false_and, iff_false]
      intro hiff
      have := hiff.mp (.inr (.inl hbig))
      omega
  · have hu : u = 0 := by
      have := hpos h.ge
      omega
    rw [hu, accepted_zero hlen]
    simp only [h, lt_irrefl, false_implies, and_true, forall_const, zero_mul]
    omega
  · have hu := hpos h.le
    have hmul : ((u * len : Nat) : Int) = exact dims * len := by rw [Nat.cast_mul, hu]
    simp only [h, h.ne', h.not_gt, false_implies, true_and, and_true, forall_const]
    unfold Accepted
    omega

end

namespace TensorImpl

variable {t : TensorImpl} {len : UInt32}

/-- The check of a tensor tells whether its data fit its shape exactly when the size is one of those it judges. -/
theorem isValid_iff (hs : t.dataType ≠ .string) (hlen : getDataTypeLength t.dataType = some len) :
    (t.isValid = true ↔ t.Consistent len) ↔ SizeJudged t.shape.dims len.toNat t.data.length := by
  obtain ⟨hpos, hle⟩ := getDataTypeLength_bounds hlen
  rw [isValid_eq hs hlen, ← Accepted]
  generalize hsize : t.shape.toShape.getShapeSize = a
  rw [GeShape.toShape, GeShape.getDims] at hsize
  unfold Consistent
  generalize t.shape.dims = dims at hsize ⊢
  by_cases hall : dims.all knownDim = true
  · have hknown : ¬∃ d ∈ dims, knownDim d = false := by simpa using hall
    rw [make_of_not_mem (all_known_iff.mp hall).2] at hsize
    simp only [hknown, false_or]
    by_cases h0 : dims = []
    · subst h0 hsize
      exact judged_of_scalar hpos hle
    · by_cases hm : Multiplies dims
      · have hlead := leadingDims_of_all hall
        have ha : a.toInt = exact dims := by
          rw [← hsize, getShapeSize_of_multiplies h0 (hlead.symm ▸ hm), sizeFrom, if_pos hall, one_mul]
        exact judged_of_product hall h0 hpos t.size_lt hm (fun h => ha ▸ toNat_toUInt64_of_nonneg (ha ▸ h))
          fun h => ha ▸ toNat_toUInt64_of_neg (ha ▸ h)
      · have ha : a.toUInt64.toNat = 0 := by
          rw [← hsize, getShapeSize_of_not ((leadingDims_of_all hall).symm ▸ hm)]
          rfl
        rw [ha]
        exact judged_of_overflow hall hpos hle hm
  · have hexists : ∃ d ∈ dims, knownDim d = false := by simpa using hall
    have hsome : unknownDim ∈ dims ∨ unknownDimNum ∈ dims := by
      rw [all_known_iff] at hall
      tauto
    simp only [hexists, true_or, iff_true]
    by_cases hrank : unknownDimNum ∈ dims
    · have ha : a.toUInt64.toNat = 2 ^ 64 - 1 := by
        rw [← hsize, getShapeSize_of_unknown hrank]
        rfl
      rw [ha]
      exact judged_of_unknown hpos (.inl hrank)
    · have hdim := hsome.resolve_right hrank
      rw [make_of_not_mem hrank] at hsize
      by_cases hm : Multiplies (leadingDims dims)
      · have ha : a = -1 := by
          refine Int64.toInt_inj.mp ?_
          rw [← hsize, getShapeSize_of_multiplies (ne_nil_of_mem hdim) hm, sizeFrom, if_neg hall]
          rfl
        rw [ha]
        exact judged_of_unknown hpos (.inr ⟨hdim, hm⟩)
      · have ha : a.toUInt64.toNat = 0 := by
          rw [← hsize, getShapeSize_of_not hm]
          rfl
        rw [ha]
        exact judged_of_hidden hpos hrank hdim hm

/-- A scalar of four-byte elements, with some data. -/
def scalar (data : List UInt8) (h : data.length < 2 ^ 64) : TensorImpl := ⟨⟨[]⟩, .float, data, h⟩

theorem isValid_scalar : ((scalar [0, 0, 0, 0] (by decide)).isValid = true ↔ (scalar [0, 0, 0, 0] (by decide)).Consistent 4) ↔
    SizeJudged [] 4 4 := isValid_iff (by decide) rfl

/-- A scalar without data passes. -/
theorem isValid_consistent_false : ¬((scalar [] (by decide)).isValid = true ↔ (scalar [] (by decide)).Consistent 4) := by
  intro h
  have hc : (scalar [] (by decide)).Consistent 4 := h.mp (by decide)
  revert hc
  simp [Consistent, scalar]

end TensorImpl

end Metadef
