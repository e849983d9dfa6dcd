import Metadef.ShapeRefiner

/-!
# Outputs of batches

A node that runs batches gets for every output the first of its largest tensors, when all dimensions are positive and no count of
elements overflows. A dimension that is zero or negative is divided by before it is looked at.
-/

namespace Metadef

open List

open SignedProduct

/-! ## Counting -/

/-- Dimensions that are positive and whose elements can be counted. -/
def CountedDims (dims : List Int64) : Prop := (∀ d ∈ dims, 0 < d.toInt) ∧ Fits (exact dims)

/-- Dimensions whose count is said to overflow: behind positive ones stands one that is negative or too large. -/
def SaidToOverflow (dims : List Int64) : Prop :=
  ∃ p d q, dims = p ++ d :: q ∧ CountedDims p ∧ (d.toInt < 0 ∨ 0 < d.toInt ∧ ¬Fits (exact p * d.toInt))

/-- A place in a list is its head, or a place in the rest. -/
theorem exists_split_cons {α : Type} {P : List α → α → Prop} {b : α} {l : List α} :
    (∃ p a q, b :: l = p ++ a :: q ∧ P p a) ↔ P [] b ∨ ∃ p a q, l = p ++ a :: q ∧ P (b :: p) a := by
  constructor
  · rintro ⟨p, a, q, heq, hP⟩
    cases p with
    | nil =>
      obtain ⟨rfl, rfl⟩ : b = a ∧ l = q := by simpa using heq
      exact .inl hP
    | cons b' p =>
      obtain ⟨rfl, rfl⟩ : b = b' ∧ l = p ++ a :: q := by simpa using heq
      exact .inr ⟨p, a, q, rfl, hP⟩
  · rintro (hP | ⟨p, a, q, rfl, hP⟩)
    · exact ⟨[], b, l, rfl, hP⟩
    · exact ⟨b :: p, a, q, rfl, hP⟩

namespace BranchNode

variable {α : Type} {size r d : Int64} {dims : List Int64}

/-- The quotient of the largest word is below a positive count when a dimension is negative or the product overflows. -/
theorem maxValue_div_lt_iff (hs : 0 < size.toInt) (hd : d ≠ 0) :
    Int64.maxValue / d < size ↔ d.toInt < 0 ∨ 0 < d.toInt ∧ ¬Fits (size.toInt * d.toInt) := by
  have hd0 : d.toInt ≠ 0 := fun h => hd (Int64.toInt_inj.mp h)
  rw [Int64.lt_iff_toInt_lt, toInt_maxValue_div]
  rcases lt_or_gt_of_ne hd0 with h | h
  · have hle : (2 ^ 63 - 1 : Int).tdiv d.toInt ≤ 0 := Int.tdiv_nonpos_of_nonneg_of_nonpos (by decide) h.le
    simp only [h, true_or, iff_true]
    omega
  · have hpos := mul_pos hs h
    rw [tdiv_lt_iff (by decide) h]
    unfold Fits
    omega

/-- What becomes of a count: a step looks at one dimension. -/
theorem countElements_cons (hs : 0 < size.toInt) (d : Int64) (dims : List Int64) :
    (0 < d.toInt ∧ Fits (size.toInt * d.toInt) ∧ countElements size (d :: dims) = countElements (size * d) dims ∧
      (size * d).toInt = size.toInt * d.toInt ∧ 0 < (size * d).toInt) ∨
    ((d.toInt < 0 ∨ 0 < d.toInt ∧ ¬Fits (size.toInt * d.toInt)) ∧ countElements size (d :: dims) = .error .overflow) ∨
    (d.toInt = 0 ∧ countElements size (d :: dims) = .error .divisionByZero) := by
  by_cases hd : d = 0
  · exact .inr (.inr ⟨by simp [hd], by rw [countElements, if_pos hd]⟩)
  · by_cases hq : Int64.maxValue / d < size
    · exact .inr (.inl ⟨(maxValue_div_lt_iff hs hd).mp hq, by rw [countElements, if_neg hd, if_pos hq]⟩)
    · have hd0 : d.toInt ≠ 0 := fun h => hd (Int64.toInt_inj.mp h)
      have hnot := mt (maxValue_div_lt_iff hs hd).mpr hq
      have hpos : 0 < d.toInt := by omega
      have hfit : Fits (size.toInt * d.toInt) := by
        by_contra h
        exact hnot (.inr ⟨hpos, h⟩)
      have hmul := toInt_mul_of_fits hfit
      exact .inl ⟨hpos, hfit, by rw [countElements, if_neg hd, if_neg hq], hmul, hmul ▸ mul_pos hs hpos⟩

theorem countElements_ok_iff (hs : 0 < size.toInt) : countElements size dims = .ok r ↔
    (∀ d ∈ dims, 0 < d.toInt) ∧ Fits (size.toInt * exact dims) ∧ r.toInt = size.toInt * exact dims := by
  induction dims generalizing size with
  | nil => simp [countElements, fits_toInt, ← Int64.toInt_inj, eq_comm]
  | cons d dims ih =>
    rcases countElements_cons hs d dims with ⟨hd, hfit, hstep, hmul, hpos⟩ | ⟨hd, hstep⟩ | ⟨hd, hstep⟩
    · rw [hstep, ih hpos, hmul, exact_cons, mul_assoc]
      simp [hd]
    · rw [hstep]
      refine iff_of_false (by simp) fun ⟨hall, hfit, _⟩ => ?_
      have hpos : 0 < d.toInt := hall d mem_cons_self
      rw [exact_cons, ← mul_assoc, stays_iff_of_pos (mul_pos hs hpos) fun x hx => hall x (mem_cons_of_mem d hx)] at hfit
      rcases hd with hd | hd
      · omega
      · exact hd.2 hfit.1
    · rw [hstep]
      refine iff_of_false (by simp) fun ⟨hall, _⟩ => ?_
      have hpos : 0 < d.toInt := hall d mem_cons_self
      omega

theorem countElements_overflow_iff (hs : 0 < size.toInt) : countElements size dims = .error .overflow ↔
    ∃ p d q, dims = p ++ d :: q ∧ (∀ x ∈ p, 0 < x.toInt) ∧ Fits (size.toInt * exact p) ∧
      (d.toInt < 0 ∨ 0 < d.toInt ∧ ¬Fits (size.toInt * exact p * d.toInt)) := by
  induction dims generalizing size with
  | nil => simp [countElements]
  | cons d dims ih =>
    rw [exists_split_cons]
    rcases countElements_cons hs d dims with ⟨hd, hfit, hstep, hmul, hpos⟩ | ⟨hd, hstep⟩ | ⟨hd, hstep⟩
    · have hneg : ¬d.toInt < 0 := by omega
      rw [hstep, ih hpos, hmul]
      simp only [exact_nil, mul_one, hneg, hfit, not_true_eq_false, and_false, or_self, false_or, forall_mem_cons, hd, true_and,
        exact_cons, mul_assoc]
    · rw [hstep]
      exact iff_of_true rfl (.inl ⟨nofun, by simpa using fits_toInt size, by simpa using hd⟩)
    · rw [hstep]
      refine iff_of_false (by simp) ?_
      simp [hd]

/-- A shape is counted exactly when its dimensions are positive and their product fits. -/
theorem countElements_one_ok_iff : (∃ r, countElements 1 dims = .ok r) ↔ CountedDims dims := by
  constructor
  · rintro ⟨r, hr⟩
    obtain ⟨hpos, hfit, _⟩ := (countElements_ok_iff (by decide)).mp hr
    exact ⟨hpos, by simpa using hfit⟩
  · rintro ⟨hpos, hfit⟩
    refine ⟨Int64.ofInt (exact dims), (countElements_ok_iff (by decide)).mpr ⟨hpos, by simpa using hfit, ?_⟩⟩
    rw [toInt_ofInt_of_fits hfit]
    exact (one_mul _).symm

theorem countElements_one_overflow_iff : countElements 1 dims = .error .overflow ↔ SaidToOverflow dims := by
  rw [countElements_overflow_iff (by decide)]
  simp [SaidToOverflow, CountedDims, and_assoc]

end BranchNode

/-! ## Selecting -/

namespace OutTensor

/-- The exact number of elements. -/
def elements {α : Type} (t : OutTensor α) : Int := exact t.shape.dims

end OutTensor

section

variable {α : Type}

/-- Tensors of a data type that can all be counted. -/
def Selectable (dataType : DataType) (tensors : List (OutTensor α)) : Prop :=
  ∀ t ∈ tensors, t.dataType = dataType ∧ CountedDims t.shape.dims

/-- Tensors of which the first that is not of the data type or cannot be counted is said to overflow. -/
def SelectionOverflows (dataType : DataType) (tensors : List (OutTensor α)) : Prop :=
  ∃ p t q, tensors = p ++ t :: q ∧ Selectable dataType p ∧ t.dataType = dataType ∧ SaidToOverflow t.shape.dims

/-- The first of the tensors that no other has more elements than. -/
def FirstLargest (tensors : List (OutTensor α)) (t : OutTensor α) : Prop :=
  ∃ k : Nat, tensors[k]? = some t ∧ (∀ t' ∈ tensors, t'.elements ≤ t.elements) ∧
    ∀ k' < k, ∀ t', tensors[k']? = some t' → t'.elements < t.elements

end

namespace BranchNode

variable {α : Type} {dt : DataType} {j idx k : Nat} {m : Int64} {t : OutTensor α} {pre ts : List (OutTensor α)}

/-- What becomes of a selection: a step counts one tensor. -/
theorem selectMax_cons (dt : DataType) (j idx : Nat) (m : Int64) (t : OutTensor α) (ts : List (OutTensor α)) :
    (t.dataType = dt ∧ CountedDims t.shape.dims ∧ ∃ size : Int64, size.toInt = t.elements ∧ selectMax dt j m idx (t :: ts) =
      if size > m then selectMax dt (j + 1) size j ts else selectMax dt (j + 1) m idx ts) ∨
    (t.dataType = dt ∧ SaidToOverflow t.shape.dims ∧ selectMax dt j m idx (t :: ts) = .error .overflow) ∨
    (¬(t.dataType = dt ∧ (CountedDims t.shape.dims ∨ SaidToOverflow t.shape.dims)) ∧
      ∃ e, e ≠ .overflow ∧ selectMax dt j m idx (t :: ts) = .error e) := by
  by_cases hdt : dt = t.dataType
  · cases hcount : countElements 1 t.shape.getDims with
    | ok size =>
      refine .inl ⟨hdt.symm, countElements_one_ok_iff.mp ⟨size, hcount⟩, size, ?_, ?_⟩
      · rw [((countElements_ok_iff (by decide)).mp hcount).2.2]
        exact one_mul _
      · rw [selectMax, if_neg (not_not.mpr hdt), hcount]
    | error e =>
      have hstep : selectMax dt j m idx (t :: ts) = .error e := by rw [selectMax, if_neg (not_not.mpr hdt), hcount]
      by_cases he : e = .overflow
      · subst he
        exact .inr (.inl ⟨hdt.symm, countElements_one_overflow_iff.mp hcount, hstep⟩)
      · refine .inr (.inr ⟨?_, e, he, hstep⟩)
        rintro ⟨-, hc | ho⟩
        · obtain ⟨r, hr⟩ := countElements_one_ok_iff.mpr hc
          cases hr.symm.trans hcount
        · exact he (by cases (countElements_one_overflow_iff.mpr ho).symm.trans hcount; rfl)
  · exact .inr (.inr ⟨fun h => hdt h.1.symm, .dataTypes, nofun, by rw [selectMax, if_pos hdt]⟩)

/-- No count is both right and said to overflow. -/
theorem not_saidToOverflow {dims : List Int64} (h : CountedDims dims) : ¬SaidToOverflow dims := by
  intro ho
  obtain ⟨r, hr⟩ := countElements_one_ok_iff.mpr h
  cases hr.symm.trans (countElements_one_overflow_iff.mpr ho)

theorem selectMax_ok_iff : (∃ k, selectMax dt j m idx ts = .ok k) ↔ Selectable dt ts := by
  induction ts generalizing j m idx with
  | nil => exact iff_of_true ⟨idx, rfl⟩ (by simp [Selectable])
  | cons t ts ih =>
    rcases selectMax_cons dt j idx m t ts with ⟨hdt, hc, size, -, hstep⟩ | ⟨hdt, ho, hstep⟩ | ⟨hnot, e, -, hstep⟩
    · rw [hstep]
      have hiff : Selectable dt (t :: ts) ↔ Selectable dt ts := by simp [Selectable, hdt, hc]
      rw [hiff]
      split
      · exact ih
      · exact ih
    · rw [hstep]
      exact iff_of_false (by simp) fun h => not_saidToOverflow (h t mem_cons_self).2 ho
    · rw [hstep]
      exact iff_of_false (by simp) fun h => hnot ⟨(h t mem_cons_self).1, .inl (h t mem_cons_self).2⟩

theorem selectionOverflows_cons : SelectionOverflows dt (t :: ts) ↔
    t.dataType = dt ∧ SaidToOverflow t.shape.dims ∨ t.dataType = dt ∧ CountedDims t.shape.dims ∧ SelectionOverflows dt ts := by
  unfold SelectionOverflows Selectable
  rw [exists_split_cons]
  refine or_congr (by simp) ⟨?_, ?_⟩
  · rintro ⟨p, a, q, heq, hp, ha⟩
    obtain ⟨ht, hp⟩ := forall_mem_cons.mp hp
    exact ⟨ht.1, ht.2, p, a, q, heq, hp, ha⟩
  · rintro ⟨hdt, hc, p, a, q, heq, hp, ha⟩
    exact ⟨p, a, q, heq, forall_mem_cons.mpr ⟨⟨hdt, hc⟩, hp⟩, ha⟩

theorem selectMax_overflow_iff : selectMax dt j m idx ts = .error .overflow ↔ SelectionOverflows dt ts := by
  induction ts generalizing j m idx with
  | nil => simp [selectMax, SelectionOverflows]
  | cons t ts ih =>
    rcases selectMax_cons dt j idx m t ts with ⟨hdt, hc, size, -, hstep⟩ | ⟨hdt, ho, hstep⟩ | ⟨hnot, e, he, hstep⟩
    · have hiff : SelectionOverflows dt (t :: ts) ↔ SelectionOverflows dt ts := by
        simp only [selectionOverflows_cons, not_saidToOverflow hc, hdt, hc, true_and, and_false, false_or]
      rw [hstep, hiff]
      split
      · exact ih
      · exact ih
    · rw [hstep]
      exact iff_of_true rfl (selectionOverflows_cons.mpr (.inl ⟨hdt, ho⟩))
    · rw [hstep, selectionOverflows_cons]
      refine iff_of_false (by simpa using he) ?_
      rintro (⟨hdt, ho⟩ | ⟨hdt, hc, -⟩)
      · exact hnot ⟨hdt, .inr ho⟩
      · exact hnot ⟨hdt, .inl hc⟩

/-- A size and a position that are those of the first largest of the tensors seen, if any. -/
def Best (pre : List (OutTensor α)) (m : Int) (idx : Nat) : Prop :=
  (∀ t ∈ pre, t.elements ≤ m) ∧ (pre = [] ∧ m = 0 ∧ idx = 0 ∨
    ∃ t, pre[idx]? = some t ∧ t.elements = m ∧ ∀ k < idx, ∀ t', pre[k]? = some t' → t'.elements < m)

theorem Best.append {m : Int} (h : Best pre m idx) (hpos : 0 < t.elements) :
    if t.elements > m then Best (pre ++ [t]) t.elements pre.length else Best (pre ++ [t]) m idx := by
  obtain ⟨hall, hbest⟩ := h
  split
  next hlt =>
    refine ⟨?_, .inr ⟨t, by simp, rfl, ?_⟩⟩
    · intro t' ht'
      rcases mem_append.mp ht' with ht' | ht'
      · exact (hall t' ht').trans hlt.le
      · rw [mem_singleton.mp ht']
    · intro k hk t' ht'
      rw [getElem?_append_left hk] at ht'
      exact (hall t' (mem_of_getElem? ht')).trans_lt hlt
  next hle =>
    refine ⟨?_, .inr ?_⟩
    · intro t' ht'
      rcases mem_append.mp ht' with ht' | ht'
      · exact hall t' ht'
      · rw [mem_singleton.mp ht']
        exact not_lt.mp hle
    · rcases hbest with ⟨-, rfl, -⟩ | ⟨t', ht', hm, hfirst⟩
      · exact absurd hpos hle
      · have hidx : idx < pre.length := (List.getElem?_eq_some_iff.mp ht').1
        refine ⟨t', by rw [getElem?_append_left hidx, ht'], hm, fun k hk t'' ht'' => ?_⟩
        rw [getElem?_append_left (hk.trans hidx)] at ht''
        exact hfirst k hk t'' ht''

theorem selectMax_best (h : Best pre m.toInt idx) (hr : selectMax dt pre.length m idx ts = .ok k) : ∃ m', Best
    (pre ++ ts) m' k := by
  induction ts generalizing pre m idx with
  | nil =>
    obtain rfl : idx = k := by simpa [selectMax] using hr
    exact ⟨m.toInt, by simpa using h⟩
  | cons t ts ih =>
    have hlen : (pre ++ [t]).length = pre.length + 1 := by simp
    rcases selectMax_cons dt pre.length idx m t ts with ⟨-, hc, size, hsize, hstep⟩ | ⟨-, -, hstep⟩ | ⟨-, e, -, hstep⟩
    · have happ := h.append (exact_pos hc.1 : 0 < t.elements)
      have happend : pre ++ t :: ts = (pre ++ [t]) ++ ts := by simp
      rw [hstep, ← hlen] at hr
      rw [happend]
      by_cases hlt : size > m
      · have hlt' : t.elements > m.toInt := by
          rw [← hsize]
          exact Int64.lt_iff_toInt_lt.mp hlt
        rw [if_pos hlt] at hr
        rw [if_pos hlt', ← hsize] at happ
        exact ih happ hr
      · have hle : ¬t.elements > m.toInt := by
          rw [← hsize]
          exact fun h => hlt (Int64.lt_iff_toInt_lt.mpr h)
        rw [if_neg hlt] at hr
        rw [if_neg hle] at happ
        exact ih happ hr
    · cases hstep.symm.trans hr
    · cases hstep.symm.trans hr

theorem selectMax_firstLargest (hne : ts ≠ []) (hr : selectMax dt 0 0 0 ts = .ok k) : ∃ t, ts[k]? = some t ∧ FirstLargest ts t := by
  have hnone : Best ([] : List (OutTensor α)) (0 : Int64).toInt 0 := ⟨by simp, .inl ⟨rfl, rfl, rfl⟩⟩
  obtain ⟨m, hall, hbest⟩ := selectMax_best hnone hr
  rcases hbest with ⟨h0, -⟩ | ⟨t, ht, rfl, hfirst⟩
  · exact absurd (by simpa using h0) hne
  · exact ⟨t, ht, k, ht, hall, hfirst⟩

/-! ## All outputs -/

/-- The tensors of an output, of the data type of the first, can all be counted. -/
def SelectableOutput (tensors : List (OutTensor α)) : Prop := ∀ ref, tensors.head? = some ref → Selectable ref.dataType tensors

def OverflowingOutput (tensors : List (OutTensor α)) : Prop := ∃ ref, tensors.head? = some ref ∧
    SelectionOverflows ref.dataType tensors

variable {node node' : BranchNode α} {i : Nat} {tensors : List (OutTensor α)} {refs : List (List (OutTensor α))}

/-- What becomes of the outputs: a step selects for one of them. -/
theorem updataOutput_cons (node : BranchNode α) (i : Nat) (tensors : List (OutTensor α)) (refs : List (List (OutTensor α))) :
    (SelectableOutput tensors ∧ ∃ node₁ : BranchNode α, node₁.outputs.length = node.outputs.length ∧
      (∀ k ≠ i, node₁.outputs[k]? = node.outputs[k]?) ∧
      (tensors ≠ [] → i < node.outputs.length → ∃ t, node₁.outputs[i]? = some t ∧ FirstLargest tensors t) ∧
      node.updataOutputForMultiBatcch i (tensors :: refs) = node₁.updataOutputForMultiBatcch (i + 1) refs) ∨
    (¬SelectableOutput tensors ∧ OverflowingOutput tensors ∧
      node.updataOutputForMultiBatcch i (tensors :: refs) = some (.paramInvalid, node)) ∨
    (¬SelectableOutput tensors ∧ ¬OverflowingOutput tensors ∧
      (node.updataOutputForMultiBatcch i (tensors :: refs) = some (.failed, node) ∨
      node.updataOutputForMultiBatcch i (tensors :: refs) = none)) := by
  cases tensors with
  | nil => exact .inl ⟨by simp [SelectableOutput], node, rfl, fun _ _ => rfl, fun h => absurd rfl h, rfl⟩
  | cons ref tensors =>
    have hok : SelectableOutput (ref :: tensors) ↔ ∃ k, selectMax ref.dataType 0 0 0 (ref :: tensors) = .ok k := by
      rw [selectMax_ok_iff]
      simp [SelectableOutput]
    have hover : OverflowingOutput (ref :: tensors) ↔ selectMax ref.dataType 0 0 0 (ref :: tensors) = .error .overflow := by
      rw [selectMax_overflow_iff]
      simp [OverflowingOutput]
    rw [hok, hover, updataOutputForMultiBatcch]
    cases hsel : selectMax ref.dataType 0 0 0 (ref :: tensors) with
    | ok k =>
      obtain ⟨t, ht, hfirst⟩ := selectMax_firstLargest (by simp) hsel
      refine .inl ⟨⟨k, rfl⟩, node.updateOutputDesc i t, ?_, ?_, ?_, ?_⟩
      · simp [updateOutputDesc]
      · intro k' hk'
        exact getElem?_set_ne hk'.symm
      · intro _ hi
        exact ⟨t, by simp [updateOutputDesc, hi], hfirst⟩
      · simp only [getD_eq_getElem?_getD, ht, Option.getD_some]
    | error e =>
      cases e with
      | overflow => exact .inr (.inl ⟨by simp, rfl, rfl⟩)
      | dataTypes => exact .inr (.inr ⟨by simp, by simp, .inl rfl⟩)
      | divisionByZero => exact .inr (.inr ⟨by simp, by simp, .inr rfl⟩)

theorem updataOutput_success_iff (node : BranchNode α) (i : Nat) (refs : List (List (OutTensor α))) :
    (∃ node', node.updataOutputForMultiBatcch i refs = some (.success, node')) ↔
    ∀ tensors ∈ refs, SelectableOutput tensors := by
  induction refs generalizing node i with
  | nil => exact iff_of_true ⟨node, rfl⟩ (by simp)
  | cons tensors refs ih =>
    rcases updataOutput_cons node i tensors refs with ⟨hsel, node₁, -, -, -, hstep⟩ | ⟨hsel, -, hstep⟩ | ⟨hsel, -, hstep | hstep⟩
    · rw [hstep, ih]
      simp [hsel]
    all_goals
      rw [hstep]
      exact iff_of_false (by simp) fun h => hsel (h tensors mem_cons_self)

/-- The outputs before the first that cannot be selected for, which is said to overflow. -/
def OverflowsAt (refs : List (List (OutTensor α))) : Prop :=
  ∃ p tensors q, refs = p ++ tensors :: q ∧ (∀ l ∈ p, SelectableOutput l) ∧ ¬SelectableOutput tensors ∧ OverflowingOutput tensors

theorem updataOutput_paramInvalid_iff (node : BranchNode α) (i : Nat) (refs : List (List (OutTensor α))) :
    (∃ node', node.updataOutputForMultiBatcch i refs = some (.paramInvalid, node')) ↔ OverflowsAt refs := by
  induction refs generalizing node i with
  | nil => simp [updataOutputForMultiBatcch, OverflowsAt]
  | cons tensors refs ih =>
    have hhead : OverflowsAt (tensors :: refs) ↔
        (¬SelectableOutput tensors ∧ OverflowingOutput tensors) ∨ (SelectableOutput tensors ∧ OverflowsAt refs) := by
      constructor
      · rintro ⟨p, l, q, heq, hp, hl, ho⟩
        cases p with
        | nil =>
          obtain ⟨rfl, rfl⟩ : tensors = l ∧ refs = q := by simpa using heq
          exact .inl ⟨hl, ho⟩
        | cons a p =>
          obtain ⟨rfl, rfl⟩ : tensors = a ∧ refs = p ++ l :: q := by simpa using heq
          exact .inr ⟨hp tensors mem_cons_self, p, l, q, rfl, fun x hx => hp x (mem_cons_of_mem tensors hx), hl, ho⟩
      · rintro (⟨hl, ho⟩ | ⟨hsel, p, l, q, rfl, hp, hl, ho⟩)
        · exact ⟨[], tensors, refs, rfl, by simp, hl, ho⟩
        · exact ⟨tensors :: p, l, q, rfl, forall_mem_cons.mpr ⟨hsel, hp⟩, hl, ho⟩
    rw [hhead]
    rcases updataOutput_cons node i tensors refs with ⟨hsel, node₁, -, -, -, hstep⟩ | ⟨hsel, ho, hstep⟩ | ⟨hsel, ho, hstep | hstep⟩
    · rw [hstep, ih]
      simp [hsel]
    all_goals simp [hstep, hsel, ho]

/-- A run that succeeds leaves the outputs before the index, and gives every later one the first largest of its tensors. -/
theorem updataOutput_written (hr : node.updataOutputForMultiBatcch i refs = some (.success, node')) :
    node'.outputs.length = node.outputs.length ∧ (∀ k < i, node'.outputs[k]? = node.outputs[k]?) ∧
      ∀ k tensors, refs[k]? = some tensors → tensors ≠ [] → i + k < node.outputs.length →
        ∃ t, node'.outputs[i + k]? = some t ∧ FirstLargest tensors t := by
  induction refs generalizing node i with
  | nil =>
    obtain rfl : node = node' := by simpa [updataOutputForMultiBatcch] using hr
    exact ⟨rfl, fun _ _ => rfl, by simp⟩
  | cons tensors refs ih =>
    rcases updataOutput_cons node i tensors refs with ⟨-, node₁, hlen, hkeep, hset, hstep⟩ | ⟨-, -, hstep⟩ | ⟨-, -, hstep | hstep⟩
    · obtain ⟨hlen', hkeep', hset'⟩ := ih (hstep ▸ hr)
      refine ⟨hlen'.trans hlen, fun k hk => (hkeep' k (by omega)).trans (hkeep k (by omega)), fun k l hl hne hk => ?_⟩
      cases k with
      | zero =>
        obtain rfl : tensors = l := by simpa using hl
        obtain ⟨t, ht, hfirst⟩ := hset hne hk
        exact ⟨t, (hkeep' i (by omega)).trans ht, hfirst⟩
      | succ k =>
        obtain ⟨t, ht, hfirst⟩ := hset' k l hl hne (by omega)
        exact ⟨t, by rwa [show i + (k + 1) = i + 1 + k by omega], hfirst⟩
    all_goals cases hstep.symm.trans hr

/-- Every call has an outcome, an overflow is one of some shape, and every other call gives each output the first largest of its
tensors. -/
structure SelectsOutputs (node : BranchNode α) (refs : List (List (OutTensor α))) : Prop where
  defined : node.updataOutputForMultiBatcch 0 refs ≠ none
  overflows : ∀ node', node.updataOutputForMultiBatcch 0 refs = some (.paramInvalid, node') →
    ∃ tensors ∈ refs, ∃ t ∈ tensors, ¬Fits (OutTensor.elements t)
  written : ∀ status node', node.updataOutputForMultiBatcch 0 refs = some (status, node') → status ≠ .paramInvalid →
    status = .success ∧
    ∀ i tensors, refs[i]? = some tensors → tensors ≠ [] → i < node.outputs.length →
      ∃ t, node'.outputs[i]? = some t ∧ FirstLargest tensors t

/-- The outputs are selected right exactly when all tensors of each have one data type and can be counted, or the first that does
not is said to overflow and some count really does. -/
theorem selectsOutputs_iff (node : BranchNode α) (refs : List (List (OutTensor α))) : node.SelectsOutputs refs ↔
    (∀ tensors ∈ refs, SelectableOutput tensors) ∨ OverflowsAt refs ∧ ∃ tensors ∈ refs, ∃ t ∈ tensors, ¬Fits
      (OutTensor.elements t) := by
  rw [← updataOutput_success_iff node 0, ← updataOutput_paramInvalid_iff node 0]
  constructor
  · rintro ⟨hdef, hover, hwritten⟩
    obtain ⟨⟨status, node'⟩, hr⟩ := Option.ne_none_iff_exists'.mp hdef
    by_cases hst : status = .paramInvalid
    · subst hst
      exact .inr ⟨⟨node', hr⟩, hover node' hr⟩
    · obtain ⟨rfl, -⟩ := hwritten status node' hr hst
      exact .inl ⟨node', hr⟩
  · rintro (⟨node', hr⟩ | ⟨⟨node', hr⟩, hunfit⟩)
    · refine ⟨by simp [hr], by simp [hr], fun status node'' hr' _ => ?_⟩
      cases hr.symm.trans hr'
      refine ⟨rfl, fun i tensors hi hne hlt => ?_⟩
      simpa using (updataOutput_written hr).2.2 i tensors hi hne (by simpa using hlt)
    · refine ⟨by simp [hr], fun _ _ => hunfit, fun status node'' hr' hst => ?_⟩
      cases hr.symm.trans hr'
      exact absurd rfl hst

/-- A dimension of zero is divided by. -/
theorem selectsOutputs_false :
    ¬(BranchNode.mk true [OutTensor.mk ⟨[1]⟩ .float ()]).SelectsOutputs [[OutTensor.mk ⟨[0]⟩ .float ()]] :=
      fun h => h.defined (by rfl)

end BranchNode

end Metadef
