import Mathlib.Tactic.Ring
import Metadef.TensorSizes
import Metadef.Theorems.ShapeSizes

/-!
# Sizes of memory

The size of a tensor is the exact one when it fits into a word and there is none otherwise, and the memory for it is aligned unless
the size is too close to the largest word. Two formats refuse numbers of dimensions they cannot split.
-/

namespace Metadef

open List

open SignedProduct

/-! ## Products -/

variable {a b c r : Int64} {dims : List Int64} {dataType : DataType} {parserPriority : Option String}

theorem checkMultiplyOverflowInt64_eq : checkMultiplyOverflowInt64 a b = !int64MulNotOverflow a b := by
  unfold checkMultiplyOverflowInt64 int64MulNotOverflow
  split_ifs <;> rfl

theorem checkedMul_of_fits (h : Fits (a.toInt * b.toInt)) : checkedMul a b = .ok (a * b) := by
  rw [checkedMul, checkMultiplyOverflowInt64_eq, int64MulNotOverflow_iff.mpr h, Bool.not_true, if_neg Bool.false_ne_true, signedMul,
    if_pos h]

theorem checkedMul_of_not_fits (h : ¬Fits (a.toInt * b.toInt)) : checkedMul a b = .error (.multiply a b) := by
  rw [checkedMul, checkMultiplyOverflowInt64_eq, Bool.eq_false_of_not_eq_true (mt int64MulNotOverflow_iff.mp h), Bool.not_false,
    if_pos rfl]

theorem checkedMul_ok_iff : checkedMul a b = .ok r ↔ r.toInt = a.toInt * b.toInt := by
  by_cases h : Fits (a.toInt * b.toInt)
  · rw [checkedMul_of_fits h, Except.ok.injEq, ← Int64.toInt_inj, toInt_mul_of_fits h, eq_comm]
  · rw [checkedMul_of_not_fits h]
    exact iff_of_false (by simp) fun hr => h (hr ▸ fits_toInt r)

/-- No product is formed that overflows. -/
theorem checkedMul_ne_undefined : checkedMul a b ≠ .error .undefined := by
  by_cases h : Fits (a.toInt * b.toInt)
  · simp [checkedMul_of_fits h]
  · simp [checkedMul_of_not_fits h]

theorem bind_ok_iff {ε α β : Type} {x : Except ε α} {f : α → Except ε β} {y : β} :
    (x >>= f) = .ok y ↔ ∃ z, x = .ok z ∧ f z = .ok y := by
  cases x with
  | error e => exact iff_of_false nofun nofun
  | ok z => exact ⟨fun h => ⟨z, rfl, h⟩, fun ⟨_, hz, h⟩ => by cases hz; exact h⟩

theorem bind_ne_error {ε α β : Type} {x : Except ε α} {f : α → Except ε β} {e : ε} (hx : x ≠ .error e)
    (hf : ∀ z, x = .ok z → f z ≠ .error e) :
    (x >>= f) ≠ .error e := by
  cases x with
  | error e' => exact fun h => hx (by cases h; rfl)
  | ok z => exact hf z rfl

/-! ## Elements -/

theorem multiplyDims_ok_iff : multiplyDims c dims = .ok r ↔ Stays c.toInt dims ∧ r.toInt = c.toInt * exact dims := by
  induction dims generalizing c with
  | nil => simp [multiplyDims, Stays, ← Int64.toInt_inj, eq_comm]
  | cons d dims ih =>
    simp only [multiplyDims, bind_ok_iff, checkedMul_ok_iff, ih, Stays, exact_cons]
    constructor
    · rintro ⟨z, hz, hstay, hr⟩
      rw [hz] at hstay hr
      exact ⟨⟨hz ▸ fits_toInt z, hstay⟩, by rw [hr, mul_assoc]⟩
    · rintro ⟨⟨hfit, hstay⟩, hr⟩
      have hmul := toInt_mul_of_fits hfit
      exact ⟨c * d, hmul, by rwa [hmul], by rw [hmul, mul_assoc, hr]⟩

theorem multiplyDims_ne_undefined : multiplyDims c dims ≠ .error .undefined := by
  induction dims generalizing c with
  | nil => exact nofun
  | cons d dims ih => exact bind_ne_error checkedMul_ne_undefined fun _ _ => ih

/-- Positive dimensions are counted exactly when their product fits. -/
theorem calcElementCntByDims_ok_iff (hpos : ∀ d ∈ dims, 0 < d.toInt) : calcElementCntByDims dims = .ok r ↔
    r.toInt = exact dims := by
  have h := stays_iff_of_pos one_pos hpos
  rw [one_mul] at h
  rw [calcElementCntByDims, multiplyDims_ok_iff]
  constructor
  · rintro ⟨-, hr⟩
    rw [hr]
    exact one_mul _
  · intro hr
    exact ⟨(h.mp (hr ▸ fits_toInt r)).2, hr.trans (one_mul _).symm⟩

/-- The quotient rounded up, in exact numbers. -/
def ceilQuotient (a b : Int) : Int := -(-a / b)

theorem ceilQuotient_pos {a b : Int} (ha : 0 < a) (hb : 0 < b) : 0 < ceilQuotient a b :=
  neg_pos.mpr (Int.ediv_neg_of_neg_of_pos (neg_neg_of_pos ha) hb)

theorem ceilQuotient_le {a b : Int} (ha : 0 < a) (hb : 0 < b) : ceilQuotient a b ≤ a := by
  have h : -a ≤ -a / b := by
    rw [Int.le_ediv_iff_mul_le hb]
    nlinarith
  unfold ceilQuotient
  omega

theorem toInt_ceilDiv (ha : 0 < a.toInt) (hb : 0 < b.toInt) : (ceilDiv a b).toInt = ceilQuotient a.toInt b.toInt := by
  have hpos := ceilQuotient_pos ha hb
  have hle := ceilQuotient_le ha hb
  have hlt := a.toInt_lt
  have hfit : Fits (ceilQuotient a.toInt b.toInt) := ⟨by omega, by omega⟩
  exact toInt_ofInt_of_fits hfit

theorem getDimC0_cases (dataType : DataType) : getDimC0 dataType = 16 ∨ getDimC0 dataType = 32 := by
  unfold getDimC0
  split
  · exact .inr rfl
  · exact .inl rfl

theorem getDimC0_pos (dataType : DataType) : 0 < (getDimC0 dataType).toInt := by
  rcases getDimC0_cases dataType with h | h <;> rw [h] <;> decide

theorem calcElementCntByDims_ne_undefined : calcElementCntByDims dims ≠ .error .undefined := multiplyDims_ne_undefined

/-- The dimensions that a tensor is stored with. -/
def storageDims (parserPriority : Option String) (format : Format) (dataType : DataType) (dims : List Int64) : List Int :=
  let c0 := (getDimC0 dataType).toInt
  match dims with
  | [n, c, h, w] =>
    if format = Format.nc1hwc0 then [n.toInt, ceilQuotient c.toInt c0, h.toInt, w.toInt, c0]
    else if format = Format.fractalZ ∧ parserPriority = some "cce" then
      [ceilQuotient c.toInt c0, h.toInt, w.toInt, ceilQuotient n.toInt 16, 16, c0]
    else dims.map Int64.toInt
  | _ => dims.map Int64.toInt

/-- The formats that are supported. -/
def supportedFormats : List Format :=
  [Format.nd, Format.md, Format.nchw, Format.hwcn, Format.nhwc, Format.chwn, Format.c1hwncoc0, Format.nc1hwc0, Format.fractalZ,
    Format.fractalNz, Format.fractalZz, Format.ndhwc, Format.ncdhw, Format.dhwcn, Format.dhwnc, Format.fractalZ3d,
    Format.fractalZ3dTranspose, Format.ndc1hwc0, Format.fractalZC04, Format.fractalZnLstm, Format.nc1hwc0C04]

/-- Dimensions that a format can be split into: two formats ask for numbers of them. -/
def Splits (parserPriority : Option String) (format : Format) (dims : List Int64) : Prop :=
  (format = Format.nc1hwc0 → dims.length = 4 ∨ dims.length = 5) ∧
    (format = Format.fractalZ → parserPriority = some "cce" → dims.length = 4)

theorem calcElementCntOfNc1hwc0_four {n c h w : Int64} (hpos : ∀ d ∈ [n, c, h, w], 0 < d.toInt) :
    calcElementCntOfNc1hwc0 [n, c, h, w] dataType = .ok r ↔
      r.toInt = ([n.toInt, ceilQuotient c.toInt (getDimC0 dataType).toInt, h.toInt, w.toInt, (getDimC0 dataType).toInt] :
        List Int).prod := by
  have h0 := getDimC0_pos dataType
  simp only [forall_mem_cons, not_mem_nil, false_implies, implies_true, and_true] at hpos
  obtain ⟨hn, hc, hh, hw⟩ := hpos
  have hc1 := toInt_ceilDiv hc h0
  rw [calcElementCntOfNc1hwc0, calcElementCntByDims_ok_iff]
  · simp [exact, hc1]
  · simp [hn, hh, hw, h0, hc1, ceilQuotient_pos hc h0]

theorem signedMul_ok_iff : signedMul a b = .ok r ↔ r.toInt = a.toInt * b.toInt := by
  by_cases h : Fits (a.toInt * b.toInt)
  · rw [signedMul, if_pos h, Except.ok.injEq, ← Int64.toInt_inj, toInt_mul_of_fits h, eq_comm]
  · rw [signedMul, if_neg h]
    exact iff_of_false (by simp) fun hr => h (hr ▸ fits_toInt r)

/-- A count that is reached through products of positive ones is reached when it fits. -/
theorem exists_factor {x y : Int} (hx : 0 < x) (hy : 0 < y) (h : Fits (x * y)) : ∃ z : Int64, z.toInt = x := by
  have hle : x ≤ x * y := le_mul_of_one_le_right hx.le hy
  exact ⟨Int64.ofInt x, toInt_ofInt_of_fits ⟨by omega, lt_of_le_of_lt hle h.2⟩⟩

theorem toInt_div_getDimC0 : (a / getDimC0 dataType).toInt = a.toInt.tdiv (getDimC0 dataType).toInt := by
  refine Int64.toInt_div_of_ne_right _ _ fun h => ?_
  have hpos := getDimC0_pos dataType
  rw [h] at hpos
  exact absurd hpos (by decide)

theorem calcElementCntOfFractalZ_four {n c h w : Int64} (hpos : ∀ d ∈ [n, c, h, w], 0 < d.toInt) :
    calcElementCntOfFractalZ (some "cce") [n, c, h, w] dataType = .ok r ↔
      r.toInt = ([ceilQuotient c.toInt (getDimC0 dataType).toInt, h.toInt, w.toInt, ceilQuotient n.toInt 16, 16,
        (getDimC0 dataType).toInt]
        : List Int).prod := by
  have h0 := getDimC0_pos dataType
  have h16 : (16 : Int64).toInt = 16 := rfl
  simp only [forall_mem_cons, not_mem_nil, false_implies, implies_true, and_true] at hpos
  obtain ⟨hn, hc, hh, hw⟩ := hpos
  have hc1 := toInt_ceilDiv hc h0
  have hc1pos := ceilQuotient_pos hc h0
  have hnc : (ceilDiv n 16).toInt = ceilQuotient n.toInt 16 := toInt_ceilDiv hn (by decide)
  have hncpos : 0 < ceilQuotient n.toInt 16 := ceilQuotient_pos hn (by decide)
  have hrows : ∀ rc : Int64, calcElementCntByDims [ceilDiv c (getDimC0 dataType), h, w, getDimC0 dataType] = .ok rc ↔
      rc.toInt = ceilQuotient c.toInt (getDimC0 dataType).toInt * (h.toInt * w.toInt) * (getDimC0 dataType).toInt := by
    intro rc
    rw [calcElementCntByDims_ok_iff (by simp [hh, hw, h0, hc1, hc1pos])]
    simp [exact, hc1, mul_assoc]
  rw [calcElementCntOfFractalZ, if_pos rfl]
  simp only [bind_ok_iff, hrows, signedMul_ok_iff, checkedMul_ok_iff, toInt_div_getDimC0, hnc, h16]
  generalize hk : (getDimC0 dataType).toInt = k at *
  generalize ceilQuotient c.toInt k = c1 at *
  generalize ceilQuotient n.toInt 16 = n1 at *
  have hcancel : (c1 * (h.toInt * w.toInt) * k).tdiv k = c1 * (h.toInt * w.toInt) := Int.mul_tdiv_cancel _ h0.ne'
  have hrow : 0 < c1 * (h.toInt * w.toInt) := mul_pos hc1pos (mul_pos hh hw)
  have htotal : ([c1, h.toInt, w.toInt, n1, 16, k] : List Int).prod = n1 * (c1 * (h.toInt * w.toInt)) * (k * 16) := by
    simp
    ring
  rw [htotal]
  constructor
  · rintro ⟨rc, hrc, cube, hcube, cc, hcc, hr⟩
    rw [hr, hcc, hcube, hrc, hcancel]
  · intro hr
    have hfit := hr ▸ fits_toInt r
    obtain ⟨rc, hrc⟩ := exists_factor (x := c1 * (h.toInt * w.toInt) * k) (y := n1 * 16) (mul_pos hrow h0) (by omega)
      (by rwa [show c1 * (h.toInt * w.toInt) * k * (n1 * 16) = n1 * (c1 * (h.toInt * w.toInt)) * (k * 16) by ring])
    obtain ⟨cc, hcc⟩ := exists_factor (mul_pos hncpos hrow) (by omega) hfit
    obtain ⟨cube, hcube⟩ := exists_factor (x := k * 16) (y := n1 * (c1 * (h.toInt * w.toInt))) (by omega) (mul_pos hncpos hrow)
      (by rwa [mul_comm])
    exact ⟨rc, hrc, cube, hcube, cc, by rw [hcc, hrc, hcancel], by rw [hr, hcc, hcube]⟩

/-! ## Counts -/

variable {format : Format}

theorem nonPositive_eq_none_iff : nonPositive dims = none ↔ ∀ d ∈ dims, 0 < d.toInt := by
  induction dims with
  | nil => simp [nonPositive]
  | cons d dims ih =>
    have h0 : d = 0 ↔ d.toInt = 0 := Int64.toInt_inj.symm
    simp only [nonPositive, Int64.lt_iff_toInt_lt, Int64.toInt_zero, h0, forall_mem_cons]
    split
    · exact iff_of_false nofun fun h => by omega
    · split
      · exact iff_of_false nofun fun h => by omega
      · rw [ih]
        exact ⟨fun h => ⟨by omega, h⟩, fun h => h.2⟩

theorem nonPositive_append {p : List Int64} (hp : ∀ x ∈ p, 0 < x.toInt) (hd : ¬0 < a.toInt) :
    nonPositive (p ++ a :: dims) = some (if a.toInt < 0 then -1 else 0) := by
  induction p with
  | nil =>
    have h0 : a = 0 ↔ a.toInt = 0 := Int64.toInt_inj.symm
    simp only [nil_append, nonPositive, Int64.lt_iff_toInt_lt, Int64.toInt_zero, h0]
    split
    · rfl
    · rw [if_pos (by omega)]
  | cons x p ih =>
    have hx : 0 < x.toInt := hp x mem_cons_self
    have hneg : ¬x < 0 := fun h => hx.not_gt (Int64.lt_iff_toInt_lt.mp h)
    have h0 : x ≠ 0 := fun h => hx.ne' (Int64.toInt_inj.mpr h)
    rw [cons_append, nonPositive, if_neg hneg, if_neg h0]
    exact ih fun y hy => hp y (mem_cons_of_mem x hy)

/-- All other supported formats are counted by their dimensions. -/
theorem calcTensorElementCnt_of_other (hf : format ∈ supportedFormats) (h1 : format ≠ Format.nc1hwc0)
    (h2 : format ≠ Format.fractalZ)
    (hpos : ∀ d ∈ dims, 0 < d.toInt) : calcTensorElementCnt parserPriority dims format dataType = calcElementCntByDims dims := by
  simp only [calcTensorElementCnt, nonPositive_eq_none_iff.mpr hpos]
  simp only [supportedFormats, mem_cons, not_mem_nil, or_false] at hf
  rcases hf with rfl | rfl | rfl | rfl | rfl | rfl | rfl | rfl | rfl | rfl | rfl | rfl | rfl | rfl | rfl | rfl | rfl | rfl | rfl | rfl | rfl
  all_goals first | rfl | exact absurd rfl h1 | exact absurd rfl h2

/-- Positive dimensions that a supported format can be split into are counted exactly when the product of the dimensions stored fits. -/
theorem calcTensorElementCnt_ok_iff (hf : format ∈ supportedFormats) (hpos : ∀ d ∈ dims, 0 < d.toInt)
    (hsplit : Splits parserPriority format dims) :
    calcTensorElementCnt parserPriority dims format dataType = .ok r ↔
      r.toInt = (storageDims parserPriority format dataType dims).prod := by
  have hplain : calcElementCntByDims dims = .ok r ↔ r.toInt = (dims.map Int64.toInt).prod := calcElementCntByDims_ok_iff hpos
  by_cases h1 : format = Format.nc1hwc0
  · subst h1
    have hcalc : calcTensorElementCnt parserPriority dims Format.nc1hwc0 dataType = calcElementCntOfNc1hwc0 dims dataType := by
      simp only [calcTensorElementCnt, nonPositive_eq_none_iff.mpr hpos]
      rfl
    rw [hcalc]
    rcases hsplit.1 rfl with hlen | hlen
    · obtain ⟨n, c, h, w, rfl⟩ := length_eq_four.mp hlen
      exact calcElementCntOfNc1hwc0_four hpos
    · cases dims with
      | nil => exact absurd hlen (by decide)
      | cons n rest =>
        obtain ⟨c, h, w, x, rfl⟩ := length_eq_four.mp (Nat.succ.inj hlen)
        exact hplain
  · by_cases h2 : format = Format.fractalZ
    · subst h2
      have hcalc : calcTensorElementCnt parserPriority dims Format.fractalZ dataType =
          calcElementCntOfFractalZ parserPriority dims dataType := by
        simp only [calcTensorElementCnt, nonPositive_eq_none_iff.mpr hpos]
        rfl
      rw [hcalc]
      by_cases hcce : parserPriority = some "cce"
      · subst hcce
        obtain ⟨n, c, h, w, rfl⟩ := length_eq_four.mp (hsplit.2 rfl rfl)
        exact calcElementCntOfFractalZ_four hpos
      · have hstore : storageDims parserPriority Format.fractalZ dataType dims = dims.map Int64.toInt := by
          unfold storageDims
          split
          · rw [if_neg (by decide), if_neg fun h => hcce h.2]
          · rfl
        have hcount : calcElementCntOfFractalZ parserPriority dims dataType = calcElementCntByDims dims := by
          unfold calcElementCntOfFractalZ
          exact if_neg hcce
        rw [hcount, hstore, hplain]
    · have hstore : storageDims parserPriority format dataType dims = dims.map Int64.toInt := by
        unfold storageDims
        split
        · rw [if_neg h1, if_neg fun h => h2 h.1]
        · rfl
      rw [calcTensorElementCnt_of_other hf h1 h2 hpos, hstore, hplain]

/-- Dimensions that a format cannot be split into are refused. -/
theorem calcTensorElementCnt_of_not_splits (hpos : ∀ d ∈ dims, 0 < d.toInt) (hsplit : ¬Splits parserPriority format dims) :
    ∃ function, calcTensorElementCnt parserPriority dims format dataType = .error (.dimsSize function dims.length) := by
  by_cases h1 : format = Format.nc1hwc0
  · subst h1
    refine ⟨"CalcElementCntOfNc1hwc0", ?_⟩
    have hcalc : calcTensorElementCnt parserPriority dims Format.nc1hwc0 dataType = calcElementCntOfNc1hwc0 dims dataType := by
      simp only [calcTensorElementCnt, nonPositive_eq_none_iff.mpr hpos]
      rfl
    rw [hcalc, calcElementCntOfNc1hwc0.eq_def]
    split
    · exact absurd ⟨fun _ => .inr rfl, fun h => absurd h (by decide)⟩ hsplit
    · exact absurd ⟨fun _ => .inl rfl, fun h => absurd h (by decide)⟩ hsplit
    · rfl
  · have h2 : format = Format.fractalZ ∧ parserPriority = some "cce" := by
      by_contra h
      exact hsplit ⟨fun h' => absurd h' h1, fun hz hc => absurd ⟨hz, hc⟩ h⟩
    obtain ⟨rfl, rfl⟩ := h2
    refine ⟨"CalcElementCntOfFractalZ", ?_⟩
    have hcalc : calcTensorElementCnt (some "cce") dims Format.fractalZ dataType = calcElementCntOfFractalZ
      (some "cce") dims dataType := by
      simp only [calcTensorElementCnt, nonPositive_eq_none_iff.mpr hpos]
      rfl
    rw [hcalc, calcElementCntOfFractalZ.eq_def, if_pos rfl]
    split
    · exact absurd ⟨fun h => absurd h (by decide), fun _ _ => rfl⟩ hsplit
    · rfl

theorem calcElementCntOfNc1hwc0_ne_undefined : calcElementCntOfNc1hwc0 dims dataType ≠ .error .undefined := by
  rw [calcElementCntOfNc1hwc0.eq_def]
  split
  · exact calcElementCntByDims_ne_undefined
  · exact calcElementCntByDims_ne_undefined
  · exact nofun

theorem calcElementCntOfFractalZ_ne_undefined : calcElementCntOfFractalZ parserPriority dims dataType ≠ .error .undefined := by
  have hcube : signedMul (getDimC0 dataType) 16 ≠ .error .undefined := by
    rcases getDimC0_cases dataType with h | h <;> rw [h] <;> decide
  rw [calcElementCntOfFractalZ.eq_def]
  split
  · split
    · exact bind_ne_error calcElementCntByDims_ne_undefined fun _ _ => bind_ne_error hcube fun _ _ =>
        bind_ne_error checkedMul_ne_undefined fun _ _ => checkedMul_ne_undefined
    · exact nofun
  · exact calcElementCntByDims_ne_undefined

/-- No product of the count is formed that overflows. -/
theorem calcTensorElementCnt_ne_undefined : calcTensorElementCnt parserPriority dims format dataType ≠ .error .undefined := by
  unfold calcTensorElementCnt calcElementCntOfFixedDims
  split
  · exact nofun
  · split_ifs
    all_goals first
      | exact calcElementCntByDims_ne_undefined
      | exact calcElementCntOfNc1hwc0_ne_undefined
      | exact calcElementCntOfFractalZ_ne_undefined
      | exact nofun

theorem storageDims_pos (hpos : ∀ d ∈ dims, 0 < d.toInt) : 0 < (storageDims parserPriority format dataType dims).prod := by
  have h0 := getDimC0_pos dataType
  unfold storageDims
  dsimp only
  split
  next n c h w =>
    simp only [forall_mem_cons, not_mem_nil, false_implies, implies_true, and_true] at hpos
    obtain ⟨hn, hc, hh, hw⟩ := hpos
    have h1 := ceilQuotient_pos hc h0
    have h2 : 0 < ceilQuotient n.toInt 16 := ceilQuotient_pos hn (by decide)
    split_ifs
    · simp only [prod_cons, prod_nil]
      positivity
    · simp only [prod_cons, prod_nil]
      positivity
    · simp only [map_cons, map_nil, prod_cons, prod_nil]
      positivity
  · exact exact_pos hpos

/-! ## Bytes -/

namespace TensorUtils

variable {shape : GeShape} {len : UInt32}

/-- The sizes of a tensor and of its memory. -/
structure SizesExact (parserPriority : Option String) (shape : GeShape) (format : Format) (dataType : DataType)
    (len : UInt32) : Prop where
  /-- A first dimension that is not positive makes the size unknown or zero. -/
  nonPositive : ∀ p d q, shape.dims = p ++ d :: q → (∀ x ∈ p, 0 < x.toInt) → ¬0 < d.toInt →
    calcTensorMemSize parserPriority shape format dataType = .ok (if d.toInt < 0 then -1 else 0)
  /-- Positive dimensions have a size exactly when it fits. -/
  positive : (∀ d ∈ shape.dims, 0 < d.toInt) → Splits parserPriority format shape.dims → ∀ r,
    calcTensorMemSize parserPriority shape format dataType = .ok r ↔
      r.toInt = (storageDims parserPriority format dataType shape.dims).prod * len.toNat
  /-- Dimensions that the format cannot be split into are refused. -/
  refused : (∀ d ∈ shape.dims, 0 < d.toInt) → ¬Splits parserPriority format shape.dims →
    ∃ function, calcTensorMemSize parserPriority shape format dataType = .error (.dimsSize function shape.dims.length)
  /-- The memory is large enough and aligned, or of the size of the tensor when that cannot be aligned. -/
  memory : ∀ r, getTensorMemorySizeInBytes parserPriority shape format dataType = .ok r → ∃ size,
    calcTensorMemSize parserPriority shape format dataType = .ok size ∧ 0 ≤ size.toInt ∧ size.toInt ≤ r.toInt ∧
      ((32 : Int) ∣ r.toInt ∨ 2 ^ 63 - 1 - 64 < size.toInt ∧ r = size)
  /-- No step overflows. -/
  defined : calcTensorMemSize parserPriority shape format dataType ≠ .error .undefined ∧
    getTensorMemorySizeInBytes parserPriority shape format dataType ≠ .error .undefined

theorem toInt_ofNat_length (hlen : getDataTypeLength dataType = some len) : (Int64.ofNat len.toNat).toInt = len.toNat :=
  Int64.toInt_ofNat_of_lt ((getDataTypeLength_bounds hlen).2.trans_lt (by decide))

theorem signedAdd_ok_iff : signedAdd a b = .ok r ↔ r.toInt = a.toInt + b.toInt := by
  by_cases h : Fits (a.toInt + b.toInt)
  · have hadd : (a + b).toInt = a.toInt + b.toInt := by
      rw [Int64.toInt_add]
      exact Int.bmod_eq_of_le h.1 h.2
    rw [signedAdd, if_pos h, Except.ok.injEq, ← Int64.toInt_inj, hadd, eq_comm]
  · rw [signedAdd, if_neg h]
    exact iff_of_false (by simp) fun hr => h (hr ▸ fits_toInt r)

/-- The memory of a size that is not negative: it is aligned unless that would overflow. -/
theorem alignMemSize_spec {size : Int64} (h0 : 0 ≤ size.toInt) : ∃ r, alignMemSize size = .ok r ∧ size.toInt ≤ r.toInt ∧
    ((32 : Int) ∣ r.toInt ∨ 2 ^ 63 - 1 - 64 < size.toInt ∧ r = size) := by
  have hlt := size.toInt_lt
  have hmax : (Int64.maxValue - 2 * 32).toInt = 2 ^ 63 - 1 - 64 := by decide
  have hlimit : size > Int64.maxValue - 2 * 32 ↔ 2 ^ 63 - 1 - 64 < size.toInt := by rw [gt_iff_lt, Int64.lt_iff_toInt_lt, hmax]
  by_cases hlarge : size > Int64.maxValue - 2 * 32
  · exact ⟨size, if_pos hlarge, le_rfl, .inr ⟨hlimit.mp hlarge, rfl⟩⟩
  · have hle := mt hlimit.mpr hlarge
    have h64 : (2 * 32 : Int64).toInt = 64 := by decide
    have h1 : (-1 : Int64).toInt = -1 := by decide
    have h32 : (32 : Int64).toInt = 32 := by decide
    obtain ⟨sum, hsum⟩ : ∃ sum : Int64, sum.toInt = size.toInt + 64 := ⟨_, toInt_ofInt_of_fits ⟨by omega, by omega⟩⟩
    obtain ⟨less, hless⟩ : ∃ less : Int64, less.toInt = sum.toInt + -1 := ⟨_, toInt_ofInt_of_fits ⟨by omega, by omega⟩⟩
    have hquot : (less / 32).toInt = less.toInt / 32 := by
      rw [Int64.toInt_div_of_ne_right _ _ (by decide), h32]
      exact Int.tdiv_eq_ediv_of_nonneg (by omega)
    obtain ⟨r, hr⟩ : ∃ r : Int64, r.toInt = less.toInt / 32 * 32 := ⟨_, toInt_ofInt_of_fits ⟨by omega, by omega⟩⟩
    refine ⟨r, ?_, by omega, .inl ⟨less.toInt / 32, by omega⟩⟩
    rw [alignMemSize, if_neg hlarge, bind_ok_iff]
    refine ⟨sum, signedAdd_ok_iff.mpr (by rw [hsum, h64]), bind_ok_iff.mpr ⟨less, signedAdd_ok_iff.mpr (by rw [hless, h1]), ?_⟩⟩
    rw [signedMul_ok_iff, hquot, h32, hr]

theorem calcTensorMemSize_eq (hlen : getDataTypeLength dataType = some len) :
    calcTensorMemSize parserPriority shape format dataType =
    (calcTensorElementCnt parserPriority shape.dims format dataType >>= fun elementCnt =>
      if elementCnt < 0 then .ok (-1) else checkedMul elementCnt (Int64.ofNat len.toNat)) := by
  simp only [calcTensorMemSize, hlen, GeShape.getDims]
  cases calcTensorElementCnt parserPriority shape.dims format dataType with
  | error e => rfl
  | ok elementCnt =>
    by_cases h : elementCnt < 0
    · simp [h, bind, Except.bind, pure, Except.pure]
    · simp [h, bind, Except.bind]

theorem getTensorMemorySizeInBytes_eq : getTensorMemorySizeInBytes parserPriority shape format dataType =
    (calcTensorMemSize parserPriority shape format dataType >>= fun size =>
      if size < 0 then .error (.outOfRange size) else alignMemSize size) := by
  unfold getTensorMemorySizeInBytes getTensorSizeInBytes
  cases calcTensorMemSize parserPriority shape format dataType with
  | error e => simp only [bind, Except.bind]
  | ok size =>
    by_cases h : size < 0
    · simp [h, bind, Except.bind, throw, throwThe, MonadExceptOf.throw]
    · simp [h, bind, Except.bind, pure, Except.pure]

/-- The sizes of every tensor of a supported format and a data type of known length are exact, except where they are refused. -/
theorem sizesExact (hf : format ∈ supportedFormats) (hlen : getDataTypeLength dataType = some len) :
    SizesExact parserPriority shape format dataType len := by
  have hlenInt := toInt_ofNat_length hlen
  have hlenpos := (getDataTypeLength_bounds hlen).1
  have hdefined : calcTensorMemSize parserPriority shape format dataType ≠ .error .undefined := by
    rw [calcTensorMemSize_eq hlen]
    refine bind_ne_error calcTensorElementCnt_ne_undefined fun z _ => ?_
    split
    · exact nofun
    · exact checkedMul_ne_undefined
  refine ⟨?_, ?_, ?_, ?_, hdefined, ?_⟩
  · intro p d q hdims hp hd
    have hcnt : calcTensorElementCnt parserPriority shape.dims format dataType = .ok (if d.toInt < 0 then -1 else 0) := by
      rw [hdims, calcTensorElementCnt, nonPositive_append hp hd]
    rw [calcTensorMemSize_eq hlen, hcnt, bind_ok_iff]
    refine ⟨_, rfl, ?_⟩
    split
    · rfl
    · exact checkedMul_ok_iff.mpr (zero_mul _).symm
  · intro hpos hsplit r
    have hprod : 0 < (storageDims parserPriority format dataType shape.dims).prod := storageDims_pos hpos
    simp only [calcTensorMemSize_eq hlen, bind_ok_iff, calcTensorElementCnt_ok_iff hf hpos hsplit]
    have hstep : ∀ cnt : Int64, cnt.toInt = (storageDims parserPriority format dataType shape.dims).prod →
        ((if cnt < 0 then .ok (-1) else checkedMul cnt (Int64.ofNat len.toNat)) = .ok r ↔
          r.toInt = (storageDims parserPriority format dataType shape.dims).prod * len.toNat) := by
      intro cnt hcnt
      have hneg : ¬cnt < 0 := fun h => by
        have := Int64.lt_iff_toInt_lt.mp h
        rw [Int64.toInt_zero] at this
        omega
      rw [if_neg hneg, checkedMul_ok_iff, hcnt, hlenInt]
    constructor
    · rintro ⟨cnt, hcnt, hr⟩
      exact (hstep cnt hcnt).mp hr
    · intro hr
      obtain ⟨cnt, hcnt⟩ := exists_factor hprod (by omega : (0 : Int) < len.toNat) (hr ▸ fits_toInt r)
      exact ⟨cnt, hcnt, (hstep cnt hcnt).mpr hr⟩
  · intro hpos hsplit
    obtain ⟨function, hcnt⟩ : ∃ function, calcTensorElementCnt parserPriority shape.dims format dataType =
        .error (.dimsSize function shape.dims.length) := calcTensorElementCnt_of_not_splits hpos hsplit
    exact ⟨function, by rw [calcTensorMemSize_eq hlen, hcnt]; rfl⟩
  · intro r hr
    rw [getTensorMemorySizeInBytes_eq, bind_ok_iff] at hr
    obtain ⟨size, hsize, hr⟩ := hr
    by_cases hneg : size < 0
    · rw [if_pos hneg] at hr
      cases hr
    · have h0 : 0 ≤ size.toInt := not_lt.mp fun h => hneg (Int64.lt_iff_toInt_lt.mpr h)
      rw [if_neg hneg] at hr
      obtain ⟨r', hr', hle, halign⟩ := alignMemSize_spec h0
      cases hr'.symm.trans hr
      exact ⟨size, hsize, h0, hle, halign⟩
  · rw [getTensorMemorySizeInBytes_eq]
    refine bind_ne_error hdefined fun size _ => ?_
    split
    · exact nofun
    next hneg =>
      have h0 : 0 ≤ size.toInt := not_lt.mp fun h => hneg (Int64.lt_iff_toInt_lt.mpr h)
      obtain ⟨r, hr, -⟩ := alignMemSize_spec h0
      rw [hr]
      exact nofun

theorem sizesExact_int8 : SizesExact none ⟨[2, 3]⟩ Format.nd .int8 1 := sizesExact (by decide) rfl

/-- A large tensor has memory that is not aligned, and two dimensions cannot be split for a format although their product fits. -/
theorem sizes_false :
    getTensorMemorySizeInBytes none ⟨[9223372036854775807]⟩ Format.nd .int8 = .ok 9223372036854775807 ∧
      ¬(32 : Int) ∣ Int64.toInt 9223372036854775807 ∧
      calcTensorMemSize none ⟨[1, 1]⟩ Format.nc1hwc0 .int8 = .error (.dimsSize "CalcElementCntOfNc1hwc0" 2) := by
  decide +kernel

end TensorUtils

end Metadef
