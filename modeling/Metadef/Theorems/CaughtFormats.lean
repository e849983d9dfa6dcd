import Metadef.TransformerUtils

/-!
# Formats that come back

A format caught before an inference should be back afterwards, with the shape inferred as the origin shape and what it becomes in the
format as the shape; and an output whose format the inference changed should be reported. The status of a failure is returned as a
`bool`, so it is never reported; and the origin shape of a caught input is not set.
-/

namespace Metadef

open List Option Bool

open NodeShapeTransUtils

/-! ## What an inference changes -/

/-- An inference sets the shape, the data type and the format of a tensor descriptor, or leaves them. -/
def TensorDescriptor.Inferred (d d' : TensorDescriptor) : Prop :=
  ∃ shape dtype layout, (layout = d.layout ∨ ∃ format, layout = Format.kept format) ∧ d' = { d with shape, dtype, layout }

/-- An inference on an operator. -/
structure TensorOpDesc.Inferred (op op' : TensorOpDesc) : Prop where
  inputs : List.Forall₂ TensorDescriptor.Inferred op.inputsDesc op'.inputsDesc
  outputs : List.Forall₂ TensorDescriptor.Inferred op.outputsDesc op'.outputsDesc

/-- What `UpdateFormatAndShape` returns and leaves, after a catch and an inference. -/
def catchAndUpdate (transfer : ShapeTransfer) (op inferred : TensorOpDesc) : Bool × TensorOpDesc :=
  let r := ({ (init op).catchFormatAndShape with opDesc := inferred } : NodeShapeTransUtils).updateFormatAndShape transfer
  (r.1, r.2.opDesc)

/-! ## What should come back -/

/-- The format is not the origin format, so that it is caught. -/
def TensorDescriptor.Caught (d : TensorDescriptor) : Prop := d.layout ≠ d.getOriginFormat

instance (d : TensorDescriptor) : Decidable d.Caught := inferInstanceAs (Decidable (_ ≠ _))

/-- The dimensions of a shape in another format. -/
def dimsInFormat (transfer : ShapeTransfer) (dims : List Int64) (old new : Format) (dtype : DataType) : List Int64 :=
  if old = new then dims else transfer dims old new dtype

/-- A descriptor has its caught format again, or the one inferred when none was caught; its origin shape is the inferred shape and its
shape what that is in the format. -/
structure TensorDescriptor.Restored (transfer : ShapeTransfer) (d inferred : TensorDescriptor) (dtype : DataType)
    (updated : TensorDescriptor) : Prop where
  format : updated.layout = if d.Caught then d.layout else inferred.layout
  originShape : updated.getOriginShape = inferred.shape
  shape : updated.shape.dims = dimsInFormat transfer inferred.shape.dims inferred.layout updated.layout dtype

/-- Every output whose format was caught still has its origin format. -/
def OutputsKept (op inferred : TensorOpDesc) : Prop :=
  ∀ (i : Nat) (d d' : TensorDescriptor), op.outputsDesc[i]? = some d → inferred.outputsDesc[i]? = some d' → d.Caught →
    d'.layout = d.getOriginFormat

/-- What `UpdateFormatAndShape` should do: return true only when the outputs have kept their formats, restore every descriptor then,
and report a failure otherwise. -/
structure Faithful (transfer : ShapeTransfer) (op inferred : TensorOpDesc) (r : Bool × TensorOpDesc) : Prop where
  kept : r.1 = true → OutputsKept op inferred
  inputs : OutputsKept op inferred → ∀ (i : Nat) (d d' u : TensorDescriptor), op.inputsDesc[i]? = some d → d.isValid = true →
    inferred.inputsDesc[i]? = some d' → r.2.inputsDesc[i]? = some u → d.Restored transfer d' d.dtype u
  outputs : OutputsKept op inferred → ∀ (i : Nat) (d d' u : TensorDescriptor), op.outputsDesc[i]? = some d →
    inferred.outputsDesc[i]? = some d' → r.2.outputsDesc[i]? = some u → d.Restored transfer d' d'.dtype u
  reported : ¬OutputsKept op inferred → r.1 = false

/-! ## When it does -/

/-- An inference that an input comes back from. A caught input has to keep its shape, and one without a format of its own its
format. -/
def TensorDescriptor.InputComesBack (d d' : TensorDescriptor) : Prop :=
  if ¬d.Caught then d'.isValid ∨ d'.shape = d.getOriginShape
  else if d.layout = Format.reserved then d'.layout = Format.reserved ∧ (d'.isValid ∨ d'.shape = d.getOriginShape)
  else d'.isValid ∧ d.layout.kept = d.layout ∧ d'.shape = d.getOriginShape

/-- An inference that an output comes back from. A caught one has to keep its format, which is the origin format. -/
def TensorDescriptor.OutputComesBack (d d' : TensorDescriptor) : Prop :=
  d.Caught → d'.layout = d.getOriginFormat ∧ d.getOriginFormat ≠ Format.reserved ∧ d.layout.kept = d.layout

namespace CaughtFormatsAux

variable {transfer : ShapeTransfer} {st : NodeShapeTransUtils} {d d' : TensorDescriptor} {i : Nat}

/-! ## Loops over places -/

variable {σ β : Type} {op : TensorOpDesc} {u : TensorDescriptor}

/-- A loop over places, each turn of which touches its own. -/
theorem foldl_range_place {f : σ → Nat → σ} {view : Nat → σ → β} {g : β → β}
    (hself : ∀ s i, view i (f s i) = g (view i s)) (hother : ∀ s i j, j ≠ i → view j (f s i) = view j s) (s : σ) (i n : Nat) :
    view i ((List.range n).foldl f s) = if i < n then g (view i s) else view i s := by
  induction n with
  | zero => simp
  | succ n ih =>
    rw [range_succ, foldl_append, foldl_cons, foldl_nil]
    by_cases hi : i = n
    · subst hi
      rw [hself, ih, if_neg (Nat.lt_irrefl i), if_pos (Nat.lt_succ_self i)]
    · rw [hother _ _ _ hi, ih]
      by_cases hlt : i < n
      · rw [if_pos hlt, if_pos (Nat.lt_succ_of_lt hlt)]
      · rw [if_neg hlt, if_neg (by omega)]

theorem foldl_frame {κ : Type} {f : σ → κ → σ} {view : σ → β} (hframe : ∀ s k, view (f s k) = view s) (ks : List κ) (s : σ) :
    view (ks.foldl f s) = view s := by
  induction ks generalizing s with
  | nil => rfl
  | cons k ks ih => rw [foldl_cons, ih, hframe]

/-! ## Inputs -/

/-- What is known of an input: the format and the data type caught, and the descriptor. -/
abbrev InSlot := Option Format × Option DataType × Option TensorDescriptor

def inSlot (i : Nat) (st : NodeShapeTransUtils) : InSlot :=
  (st.mapFormatIn[i]?, st.mapDtypeIn[i]?, st.opDesc.inputsDesc[i]?)

/-- The descriptor an inference is given for a caught input. -/
def shownInput (d : TensorDescriptor) : TensorDescriptor :=
  (d.setFormat d.getOriginFormat).setShape (d.setFormat d.getOriginFormat).getOriginShape

def catchIn : InSlot → InSlot
  | (f, t, some d) =>
    if d.isValid = true ∧ d.Caught then (f.map fun _ => d.layout, t.map fun _ => d.dtype, some (shownInput d)) else (f, t, some d)
  | (f, t, none) => (f, t, none)

theorem inSlot_catchInput (st : NodeShapeTransUtils) (i : Nat) : inSlot i (catchInput st i) = catchIn (inSlot i st) := by
  unfold catchInput TensorOpDesc.mutableInputDesc
  cases hd : st.opDesc.inputsDesc[i]? with
  | none => simp [inSlot, catchIn, hd]
  | some d =>
    by_cases hvalid : d.isValid = true
    · by_cases hcaught : d.layout = d.getOriginFormat
      · simp [inSlot, catchIn, hd, hvalid, hcaught, TensorDescriptor.Caught]
      · simp [inSlot, catchIn, hd, hvalid, hcaught, TensorDescriptor.Caught, TensorOpDesc.setInput, shownInput,
          getElem?_set_self', Function.const_def]
    · simp [inSlot, catchIn, hd, hvalid]

theorem inSlot_catchInput_of_ne (st : NodeShapeTransUtils) (i j : Nat) (hj : j ≠ i) :
    inSlot j (catchInput st i) = inSlot j st := by
  unfold catchInput
  cases st.opDesc.mutableInputDesc i with
  | none => rfl
  | some d =>
    dsimp only
    split
    · rfl
    · simp [inSlot, TensorOpDesc.setInput, getElem?_set_ne hj.symm]

def updateIn (transfer : ShapeTransfer) : InSlot → InSlot
  | (f, t, some d) =>
    if d.isValid = false then (f, t, some d)
    else if f.getD Format.reserved = Format.reserved then
      (f, t, some ((d.setOriginFormat d.layout).setOriginShape d.shape))
    else if d.layout = f.getD Format.reserved then (f, t, some d)
    else (f, t, some ((d.setFormat (f.getD Format.reserved)).setShape
      ⟨transfer d.shape.getDims d.layout (f.getD Format.reserved) (t.getD .undefined)⟩))
  | (f, t, none) => (f, t, none)

theorem inSlot_updateInput (st : NodeShapeTransUtils) (i : Nat) :
    inSlot i (updateInput transfer st i) = updateIn transfer (inSlot i st) := by
  unfold updateInput TensorOpDesc.mutableInputDesc
  simp only [getD_eq_getElem?_getD]
  cases hd : st.opDesc.inputsDesc[i]? with
  | none => simp [inSlot, updateIn, hd]
  | some d =>
    cases hvalid : d.isValid with
    | false => simp [inSlot, updateIn, hd, hvalid]
    | true =>
      by_cases hnone : st.mapFormatIn[i]?.getD Format.reserved = Format.reserved
      · simp [inSlot, updateIn, hd, hvalid, hnone, TensorOpDesc.setInput, getElem?_set_self']
      · by_cases hsame : d.layout = st.mapFormatIn[i]?.getD Format.reserved
        · rw [← hsame] at hnone
          simp [inSlot, updateIn, hd, hvalid, hnone, ← hsame]
        · simp [inSlot, updateIn, hd, hvalid, hnone, hsame, TensorOpDesc.setInput, getElem?_set_self']

theorem inSlot_updateInput_of_ne (st : NodeShapeTransUtils) (i j : Nat) (hj : j ≠ i) :
    inSlot j (updateInput transfer st i) = inSlot j st := by
  unfold updateInput
  cases st.opDesc.mutableInputDesc i with
  | none => rfl
  | some d =>
    dsimp only
    split
    · simp [inSlot, TensorOpDesc.setInput, getElem?_set_ne hj.symm]
    · split
      · rfl
      · simp [inSlot, TensorOpDesc.setInput, getElem?_set_ne hj.symm]

/-! ## Outputs -/

/-- What is known of an output: the format and the origin format caught, and the descriptor. -/
abbrev OutSlot := Option Format × Option Format × Option TensorDescriptor

def outSlot (i : Nat) (st : NodeShapeTransUtils) : OutSlot :=
  (st.mapFormatOut[i]?, st.mapOriFormatOut[i]?, st.opDesc.outputsDesc[i]?)

def catchOut : OutSlot → OutSlot
  | (f, o, some d) =>
    if d.Caught then (f.map fun _ => d.layout, o.map fun _ => d.getOriginFormat, some (d.setFormat d.getOriginFormat))
    else (f, o, some d)
  | (f, o, none) => (f, o, none)

theorem outSlot_catchOutput (st : NodeShapeTransUtils) (i : Nat) : outSlot i (catchOutput st i) = catchOut (outSlot i st) := by
  unfold catchOutput TensorOpDesc.mutableOutputDesc
  cases hd : st.opDesc.outputsDesc[i]? with
  | none => simp [outSlot, catchOut, hd]
  | some d =>
    by_cases hcaught : d.layout = d.getOriginFormat
    · simp [outSlot, catchOut, hd, hcaught, TensorDescriptor.Caught]
    · simp [outSlot, catchOut, hd, hcaught, TensorDescriptor.Caught, TensorOpDesc.setOutput, getElem?_set_self',
        Function.const_def]

theorem outSlot_catchOutput_of_ne (st : NodeShapeTransUtils) (i j : Nat) (hj : j ≠ i) :
    outSlot j (catchOutput st i) = outSlot j st := by
  unfold catchOutput
  cases st.opDesc.mutableOutputDesc i with
  | none => rfl
  | some d =>
    dsimp only
    split
    · rfl
    · simp [outSlot, TensorOpDesc.setOutput, getElem?_set_ne hj.symm]

/-- What is done to an output that has its origin format. -/
def updateOut (transfer : ShapeTransfer) : OutSlot → OutSlot
  | (f, o, some d) =>
    if o.getD Format.reserved = Format.reserved then (f, o, some ((d.setOriginFormat d.layout).setOriginShape d.shape))
    else if d.layout ≠ o.getD Format.reserved then (f, o, some d)
    else if d.layout = f.getD Format.reserved then (f, o, some (d.setOriginShape d.shape))
    else (f, o, some (((d.setOriginShape d.shape).setFormat (f.getD Format.reserved)).setShape
      ⟨transfer d.shape.getDims d.layout (f.getD Format.reserved) d.dtype⟩))
  | (f, o, none) => (f, o, none)

theorem outSlot_updateOutput (st : NodeShapeTransUtils) (i : Nat) :
    outSlot i (updateOutput transfer st i).2 = updateOut transfer (outSlot i st) := by
  unfold updateOutput TensorOpDesc.mutableOutputDesc
  simp only [getD_eq_getElem?_getD]
  cases hd : st.opDesc.outputsDesc[i]? with
  | none => simp [outSlot, updateOut, hd]
  | some d =>
    by_cases hnone : st.mapOriFormatOut[i]?.getD Format.reserved = Format.reserved
    · simp [outSlot, updateOut, hd, hnone, TensorOpDesc.setOutput, getElem?_set_self']
    · by_cases hkept : d.layout = st.mapOriFormatOut[i]?.getD Format.reserved
      · rw [← hkept] at hnone
        by_cases hsame : d.layout = st.mapFormatOut[i]?.getD Format.reserved
        · simp [outSlot, updateOut, hd, hnone, ← hkept, ← hsame, TensorOpDesc.setOutput, getElem?_set_self']
        · simp [outSlot, updateOut, hd, hnone, ← hkept, hsame, TensorOpDesc.setOutput, getElem?_set_self',
            TensorDescriptor.setOriginShape, TensorDescriptor.setFormat]
      · simp [outSlot, updateOut, hd, hnone, hkept]

theorem outSlot_updateOutput_of_ne (st : NodeShapeTransUtils) (i j : Nat) (hj : j ≠ i) :
    outSlot j (updateOutput transfer st i).2 = outSlot j st := by
  unfold updateOutput
  cases st.opDesc.mutableOutputDesc i with
  | none => rfl
  | some d =>
    dsimp only
    split
    · simp [outSlot, TensorOpDesc.setOutput, getElem?_set_ne hj.symm]
    · split
      · rfl
      · split <;> simp [outSlot, TensorOpDesc.setOutput, getElem?_set_ne hj.symm]

/-! ## The run -/

/-- The status of a failure is true as a `bool`. -/
theorem updateOutputs_true (is : List Nat) (st : NodeShapeTransUtils) : (updateOutputs transfer is st).1 = true := by
  induction is generalizing st with
  | nil => rfl
  | cons i is ih =>
    rw [updateOutputs]
    cases hstep : updateOutput transfer st i with
    | mk status st' =>
      cases status with
      | none => exact ih st'
      | some status =>
        have hfailed : status = graphFailed := by
          unfold updateOutput at hstep
          grind
        rw [hfailed]
        exact (by decide : decide (graphFailed ≠ 0) = true)

/-- The loop over outputs goes through all that have the origin format caught. -/
theorem updateOutputs_eq (is : List Nat) : ∀ st : NodeShapeTransUtils, is.Nodup →
    (∀ i ∈ is, ∀ d o, st.opDesc.outputsDesc[i]? = some d → st.mapOriFormatOut[i]? = some o → o = Format.reserved ∨ d.layout = o) →
    (∀ i ∈ is, i < st.mapOriFormatOut.length) →
    (updateOutputs transfer is st).2 = is.foldl (fun st i => (updateOutput transfer st i).2) st := by
  induction is with
  | nil => exact fun _ _ _ _ => rfl
  | cons i is ih =>
    intro st hnodup hkept hlt
    obtain ⟨hi, hnodup⟩ := nodup_cons.mp hnodup
    have hgoes : (updateOutput transfer st i).1 = none := by
      have ho := getElem?_eq_getElem (hlt i mem_cons_self)
      unfold updateOutput TensorOpDesc.mutableOutputDesc
      cases hd : st.opDesc.outputsDesc[i]? with
      | none => rfl
      | some d =>
        have hone := hkept i mem_cons_self d _ hd ho
        simp only [getD_eq_getElem?_getD, ho, getD_some]
        grind
    have hframe : ∀ j ∈ is, outSlot j (updateOutput transfer st i).2 = outSlot j st := by
      intro j hj
      exact outSlot_updateOutput_of_ne st i j fun heq => hi (heq ▸ hj)
    have hlength : (updateOutput transfer st i).2.mapOriFormatOut = st.mapOriFormatOut := by
      unfold updateOutput
      grind
    rw [updateOutputs]
    cases hstep : updateOutput transfer st i with
    | mk status st' =>
      rw [hstep] at hgoes hframe hlength
      subst hgoes
      rw [foldl_cons, hstep]
      refine ih st' hnodup (fun j hj d o hd ho => ?_) fun j hj => hlength ▸ hlt j (mem_cons_of_mem i hj)
      have hsame := hframe j hj
      simp only [outSlot, Prod.mk.injEq] at hsame
      rw [hsame.2.1] at ho
      rw [hsame.2.2] at hd
      exact hkept j (mem_cons_of_mem i hj) d o hd ho

theorem inSlot_catchOutput (st : NodeShapeTransUtils) (i k : Nat) : inSlot i (catchOutput st k) = inSlot i st := by
  unfold catchOutput
  grind [inSlot, TensorOpDesc.setOutput]

theorem outSlot_catchInput (st : NodeShapeTransUtils) (i k : Nat) : outSlot i (catchInput st k) = outSlot i st := by
  unfold catchInput
  grind [outSlot, TensorOpDesc.setInput]

theorem outSlot_updateInput (st : NodeShapeTransUtils) (i k : Nat) : outSlot i (updateInput transfer st k) = outSlot i st := by
  unfold updateInput
  grind [outSlot, TensorOpDesc.setInput]

theorem inSlot_updateOutput (st : NodeShapeTransUtils) (i k : Nat) : inSlot i (updateOutput transfer st k).2 = inSlot i st := by
  unfold updateOutput
  grind [inSlot, TensorOpDesc.setOutput]

theorem inSlot_updateOutputs (is : List Nat) (st : NodeShapeTransUtils) (i : Nat) :
    inSlot i (updateOutputs transfer is st).2 = inSlot i st := by
  induction is generalizing st with
  | nil => rfl
  | cons k is ih =>
    have hone := @inSlot_updateOutput transfer st i k
    rw [updateOutputs]
    cases hstep : updateOutput transfer st k with
    | mk status st' =>
      rw [hstep] at hone
      cases status with
      | none => exact (ih st').trans hone
      | some status => exact hone

/-- The descriptor and what was caught of it, before the inference. -/
def caughtOf (op : TensorOpDesc) : NodeShapeTransUtils := (init op).catchFormatAndShape

theorem inSlot_caughtOf (hin : Positions.Indexes op.inputNameIdx op.inputsDesc.length) (hd : op.inputsDesc[i]? = some d) :
    inSlot i (caughtOf op) = if d.isValid = true ∧ d.Caught then (some d.layout, some d.dtype, some (shownInput d))
      else (some Format.reserved, some .undefined, some d) := by
  have hi : i < op.inputsDesc.length := (List.getElem?_eq_some_iff.mp hd).1
  have hslot : inSlot i (init op) = (some Format.reserved, some .undefined, some d) := by
    simp [inSlot, init, hin.length_eq, hi, ← hd]
  rw [caughtOf, catchFormatAndShape, foldl_frame (fun st k => inSlot_catchOutput st i k),
    foldl_range_place inSlot_catchInput inSlot_catchInput_of_ne, hslot, if_pos (by simpa [init, hin.length_eq] using hi)]
  rfl

theorem outSlot_caughtOf (hout : Positions.Indexes op.outputNameIdx op.outputsDesc.length) (hd : op.outputsDesc[i]? = some d) :
    outSlot i (caughtOf op) = if d.Caught then (some d.layout, some d.getOriginFormat, some (d.setFormat d.getOriginFormat))
      else (some Format.reserved, some Format.reserved, some d) := by
  have hi : i < op.outputsDesc.length := (List.getElem?_eq_some_iff.mp hd).1
  have hslot : outSlot i (init op) = (some Format.reserved, some Format.reserved, some d) := by
    simp [outSlot, init, hout.length_eq, hi, ← hd]
  rw [caughtOf, catchFormatAndShape, foldl_range_place outSlot_catchOutput outSlot_catchOutput_of_ne,
    foldl_frame (fun st k => outSlot_catchInput st i k), hslot, if_pos (by simpa [init, hout.length_eq] using hi)]
  rfl

theorem caughtOf_sizes (op : TensorOpDesc) : (caughtOf op).inNum = op.inputNameIdx.length ∧
    (caughtOf op).outNum = op.outputNameIdx.length ∧ (caughtOf op).mapOriFormatOut.length = op.outputNameIdx.length := by
  have hin : ∀ (st : NodeShapeTransUtils) (k : Nat), ((catchInput st k).inNum, (catchInput st k).outNum,
      (catchInput st k).mapOriFormatOut.length) = (st.inNum, st.outNum, st.mapOriFormatOut.length) := by
    intro st k
    unfold catchInput
    grind
  have hout : ∀ (st : NodeShapeTransUtils) (k : Nat), ((catchOutput st k).inNum, (catchOutput st k).outNum,
      (catchOutput st k).mapOriFormatOut.length) = (st.inNum, st.outNum, st.mapOriFormatOut.length) := by
    intro st k
    unfold catchOutput
    grind [length_set]
  have hsizes : ((caughtOf op).inNum, (caughtOf op).outNum, (caughtOf op).mapOriFormatOut.length) =
      ((init op).inNum, (init op).outNum, (init op).mapOriFormatOut.length) :=
    (@foldl_frame _ _ _ _ (fun st : NodeShapeTransUtils => (st.inNum, st.outNum, st.mapOriFormatOut.length)) hout
      (List.range (init op).outNum) ((List.range (init op).inNum).foldl catchInput (init op))).trans
    (@foldl_frame _ _ _ _ (fun st : NodeShapeTransUtils => (st.inNum, st.outNum, st.mapOriFormatOut.length)) hin _ (init op))
  simpa [init] using hsizes

variable {op inferred : TensorOpDesc}

theorem catchAndUpdate_true : (catchAndUpdate transfer op inferred).1 = true := updateOutputs_true _ _

/-- An input after the update. -/
theorem catchAndUpdate_input (hin : Positions.Indexes op.inputNameIdx op.inputsDesc.length) (hd : op.inputsDesc[i]? = some d)
    (hd' : inferred.inputsDesc[i]? = some d') : (catchAndUpdate transfer op inferred).2.inputsDesc[i]? =
      (updateIn transfer (if d.isValid = true ∧ d.Caught then (some d.layout, some d.dtype, some d')
        else (some Format.reserved, some .undefined, some d'))).2.2 := by
  have hi : i < op.inputsDesc.length := (List.getElem?_eq_some_iff.mp hd).1
  have hslot := inSlot_caughtOf hin hd
  have hstart : inSlot i { caughtOf op with opDesc := inferred } =
      if d.isValid = true ∧ d.Caught then (some d.layout, some d.dtype, some d')
        else (some Format.reserved, some .undefined, some d') := by
    rw [← hd']
    split at hslot
    · rw [if_pos ‹_›]
      simp only [inSlot, Prod.mk.injEq] at hslot ⊢
      exact ⟨hslot.1, hslot.2.1, trivial⟩
    · rw [if_neg ‹_›]
      simp only [inSlot, Prod.mk.injEq] at hslot ⊢
      exact ⟨hslot.1, hslot.2.1, trivial⟩
  have hlt : i < (caughtOf op).inNum := by rwa [(caughtOf_sizes op).1, hin.length_eq]
  have hend : inSlot i (({ caughtOf op with opDesc := inferred } : NodeShapeTransUtils).updateFormatAndShape transfer).2 =
      updateIn transfer (inSlot i { caughtOf op with opDesc := inferred }) := by
    rw [updateFormatAndShape, inSlot_updateOutputs, foldl_range_place inSlot_updateInput inSlot_updateInput_of_ne, if_pos hlt]
  rw [hstart] at hend
  exact congrArg (fun v : InSlot => v.2.2) hend

/-- An output after the update, where all have kept their formats. -/
theorem catchAndUpdate_output (hout : Positions.Indexes op.outputNameIdx op.outputsDesc.length)
    (hlen : op.outputsDesc.length = inferred.outputsDesc.length) (hkept : OutputsKept op inferred)
    (hd : op.outputsDesc[i]? = some d) (hd' : inferred.outputsDesc[i]? = some d') :
    (catchAndUpdate transfer op inferred).2.outputsDesc[i]? =
      (updateOut transfer (if d.Caught then (some d.layout, some d.getOriginFormat, some d')
        else (some Format.reserved, some Format.reserved, some d'))).2.2 := by
  have hstart : ∀ {i d d'}, op.outputsDesc[i]? = some d → inferred.outputsDesc[i]? = some d' →
      outSlot i { caughtOf op with opDesc := inferred } =
        if d.Caught then (some d.layout, some d.getOriginFormat, some d')
          else (some Format.reserved, some Format.reserved, some d') := by
    intro i d d' hd hd'
    have hslot := outSlot_caughtOf hout hd
    rw [← hd']
    split at hslot
    · rw [if_pos ‹_›]
      simp only [outSlot, Prod.mk.injEq] at hslot ⊢
      exact ⟨hslot.1, hslot.2.1, trivial⟩
    · rw [if_neg ‹_›]
      simp only [outSlot, Prod.mk.injEq] at hslot ⊢
      exact ⟨hslot.1, hslot.2.1, trivial⟩
  have hi : i < (caughtOf op).outNum := by
    rw [(caughtOf_sizes op).2.1, hout.length_eq]
    exact (List.getElem?_eq_some_iff.mp hd).1
  have hframe : ∀ k, outSlot k ((List.range (caughtOf op).inNum).foldl (updateInput transfer)
      { caughtOf op with opDesc := inferred }) = outSlot k { caughtOf op with opDesc := inferred } := fun k =>
    foldl_frame (fun st j => outSlot_updateInput st k j) _ _
  have hloop := @updateOutputs_eq transfer (List.range (caughtOf op).outNum)
    ((List.range (caughtOf op).inNum).foldl (updateInput transfer) { caughtOf op with opDesc := inferred }) nodup_range
    (fun k hk e o he ho => by
      have hk : k < op.outputsDesc.length := by
        rw [mem_range, (caughtOf_sizes op).2.1, hout.length_eq] at hk
        exact hk
      have hslot := hframe k
      rw [hstart (getElem?_eq_getElem hk) (getElem?_eq_getElem (hlen ▸ hk))] at hslot
      simp only [outSlot, he, ho] at hslot
      split at hslot
      · rename_i hcaught
        simp only [Prod.mk.injEq, Option.some.injEq] at hslot
        obtain ⟨-, rfl, rfl⟩ := hslot
        exact .inr (hkept k _ _ (getElem?_eq_getElem hk) (getElem?_eq_getElem (hlen ▸ hk)) hcaught)
      · simp only [Prod.mk.injEq, Option.some.injEq] at hslot
        exact .inl hslot.2.1)
    (fun k hk => by
      have hlength : ((List.range (caughtOf op).inNum).foldl (updateInput transfer)
          { caughtOf op with opDesc := inferred }).mapOriFormatOut = (caughtOf op).mapOriFormatOut :=
        @foldl_frame _ _ _ _ NodeShapeTransUtils.mapOriFormatOut (fun st j => by unfold updateInput; grind) _ _
      rw [hlength, (caughtOf_sizes op).2.2, ← (caughtOf_sizes op).2.1]
      exact mem_range.mp hk)
  have hend : outSlot i (({ caughtOf op with opDesc := inferred } : NodeShapeTransUtils).updateFormatAndShape transfer).2 =
      updateOut transfer (outSlot i { caughtOf op with opDesc := inferred }) := by
    rw [updateFormatAndShape, hloop]
    have hplace := @foldl_range_place _ _ (fun st i => (updateOutput transfer st i).2) outSlot (updateOut transfer)
      outSlot_updateOutput outSlot_updateOutput_of_ne
      ((List.range (caughtOf op).inNum).foldl (updateInput transfer) { caughtOf op with opDesc := inferred }) i
      (caughtOf op).outNum
    rw [if_pos hi, hframe i] at hplace
    exact hplace
  rw [hstart hd hd'] at hend
  exact congrArg (fun v : OutSlot => v.2.2) hend

/-! ## One descriptor -/

theorem kept_kept (format : Format) : format.kept.kept = format.kept := by
  unfold Format.kept Format.getPrimaryFormat Format.reserved
  split
  · rename_i h
    have hmod : format % 2 ^ 24 % 256 = format % 256 := Nat.mod_mod_of_dvd format (by decide)
    rw [hmod, if_pos h, Nat.mod_mod]
  · decide

theorem layout_of_not_isValid (h : d.isValid = false) : d.layout = Format.reserved := by
  unfold TensorDescriptor.isValid at h
  simp only [not_eq_false', and_eq_true, decide_eq_true_eq] at h
  exact h.2

/-- What an inference on a caught input leaves. -/
theorem inferred_shown (h : (shownInput d).Inferred d') : d'.getOriginShape = d.getOriginShape ∧ d'.layout.kept = d'.layout := by
  obtain ⟨shape, dtype, layout, hlayout, rfl⟩ := h
  refine ⟨rfl, ?_⟩
  rcases hlayout with rfl | ⟨format, rfl⟩
  · exact kept_kept _
  · exact kept_kept _

theorem inferred_origin (h : d.Inferred d') : d'.getOriginShape = d.getOriginShape := by
  obtain ⟨shape, dtype, layout, -, rfl⟩ := h
  rfl

theorem restored_input_iff (hvalid : d.isValid = true) (hinf : (if d.Caught then shownInput d else d).Inferred d')
    (hu : (updateIn transfer (if d.isValid = true ∧ d.Caught then (some d.layout, some d.dtype, some d')
        else (some Format.reserved, some .undefined, some d'))).2.2 = some u) :
    d.Restored transfer d' d.dtype u ↔ d.InputComesBack d' := by
  unfold TensorDescriptor.InputComesBack
  by_cases hcaught : d.Caught
  · rw [if_pos hcaught] at hinf
    obtain ⟨horigin, hkept⟩ := inferred_shown hinf
    rw [if_pos ⟨hvalid, hcaught⟩] at hu
    simp only [updateIn, getD_some] at hu
    rw [if_neg (not_not.mpr hcaught)]
    by_cases hreserved : d.layout = Format.reserved
    · rw [if_pos hreserved]
      by_cases hvalid' : d'.isValid = true
      · rw [if_neg (by simp [hvalid']), if_pos hreserved] at hu
        obtain rfl := Option.some.inj hu
        refine ⟨fun h => ⟨?_, .inl hvalid'⟩, fun h => ⟨?_, rfl, ?_⟩⟩
        · have hformat := h.format
          rw [if_pos hcaught, hreserved] at hformat
          exact hformat
        · rw [if_pos hcaught, hreserved]
          exact h.1
        · exact (if_pos rfl).symm
      · rw [not_eq_true] at hvalid'
        rw [if_pos hvalid'] at hu
        obtain rfl := Option.some.inj hu
        have hlayout := layout_of_not_isValid hvalid'
        refine ⟨fun h => ⟨hlayout, .inr (h.originShape.symm.trans horigin)⟩, fun h => ⟨?_, ?_, (if_pos rfl).symm⟩⟩
        · rw [if_pos hcaught, hlayout, hreserved]
        · rw [horigin]
          exact (h.2.resolve_left (by simp [hvalid'])).symm
    · rw [if_neg hreserved]
      by_cases hvalid' : d'.isValid = true
      · rw [if_neg (by simp [hvalid']), if_neg hreserved] at hu
        by_cases hsame : d'.layout = d.layout
        · rw [if_pos hsame] at hu
          obtain rfl := Option.some.inj hu
          refine ⟨fun h => ⟨hvalid', hsame ▸ hkept, h.originShape.symm.trans horigin⟩, fun h => ⟨?_, ?_, (if_pos rfl).symm⟩⟩
          · rw [if_pos hcaught]
            exact hsame
          · exact horigin.trans h.2.2.symm
        · rw [if_neg hsame] at hu
          obtain rfl := Option.some.inj hu
          refine ⟨fun h => ⟨hvalid', ?_, h.originShape.symm.trans horigin⟩, fun h => ⟨?_, ?_, ?_⟩⟩
          · have hformat := h.format
            rw [if_pos hcaught] at hformat
            exact hformat
          · rw [if_pos hcaught]
            exact h.2.1
          · exact horigin.trans h.2.2.symm
          · have hformat : ((d'.setFormat d.layout).setShape
                ⟨transfer d'.shape.getDims d'.layout d.layout d.dtype⟩).layout = d.layout := h.2.1
            rw [hformat, dimsInFormat, if_neg hsame]
            rfl
      · rw [not_eq_true] at hvalid'
        rw [if_pos hvalid'] at hu
        obtain rfl := Option.some.inj hu
        have hlayout := layout_of_not_isValid hvalid'
        refine ⟨fun h => absurd h.format ?_, fun h => absurd h.1 (by simp [hvalid'])⟩
        rw [if_pos hcaught, hlayout]
        exact fun heq => hreserved heq.symm
  · rw [if_neg hcaught] at hinf
    have horigin := inferred_origin hinf
    rw [if_neg fun h => hcaught h.2] at hu
    simp only [updateIn, getD_some] at hu
    rw [if_pos hcaught]
    by_cases hvalid' : d'.isValid = true
    · rw [if_neg (by simp [hvalid']), if_pos trivial] at hu
      obtain rfl := Option.some.inj hu
      exact ⟨fun _ => .inl hvalid', fun _ => ⟨(if_neg hcaught).symm, rfl, (if_pos rfl).symm⟩⟩
    · rw [not_eq_true] at hvalid'
      rw [if_pos hvalid'] at hu
      obtain rfl := Option.some.inj hu
      refine ⟨fun h => .inr (h.originShape.symm.trans horigin), fun h => ⟨(if_neg hcaught).symm, ?_, (if_pos rfl).symm⟩⟩
      rw [horigin]
      exact (h.resolve_left (by simp [hvalid'])).symm

theorem restored_output_iff (hkept : d.Caught → d'.layout = d.getOriginFormat)
    (hu : (updateOut transfer (if d.Caught then (some d.layout, some d.getOriginFormat, some d')
        else (some Format.reserved, some Format.reserved, some d'))).2.2 = some u) :
    d.Restored transfer d' d'.dtype u ↔ d.OutputComesBack d' := by
  unfold TensorDescriptor.OutputComesBack
  by_cases hcaught : d.Caught
  · have hlayout := hkept hcaught
    rw [if_pos hcaught] at hu
    simp only [updateOut, getD_some] at hu
    by_cases hreserved : d.getOriginFormat = Format.reserved
    · rw [if_pos hreserved] at hu
      obtain rfl := Option.some.inj hu
      refine ⟨fun h => absurd h.format ?_, fun h => absurd hreserved (h hcaught).2.1⟩
      rw [if_pos hcaught]
      exact fun heq => hcaught (heq.symm.trans hlayout)
    · have hdiffer : d'.layout ≠ d.layout := fun heq => hcaught (heq.symm.trans hlayout)
      rw [if_neg hreserved, if_neg (not_not.mpr hlayout), if_neg hdiffer] at hu
      obtain rfl := Option.some.inj hu
      refine ⟨fun h _ => ⟨hlayout, hreserved, ?_⟩, fun h => ⟨?_, rfl, ?_⟩⟩
      · have hformat := h.format
        rw [if_pos hcaught] at hformat
        exact hformat
      · rw [if_pos hcaught]
        exact (h hcaught).2.2
      · have hformat : (((d'.setOriginShape d'.shape).setFormat d.layout).setShape
            ⟨transfer d'.shape.getDims d'.layout d.layout d'.dtype⟩).layout = d.layout := (h hcaught).2.2
        rw [hformat, dimsInFormat, if_neg hdiffer]
        rfl
  · rw [if_neg hcaught] at hu
    simp only [updateOut, getD_some] at hu
    rw [if_pos trivial] at hu
    obtain rfl := Option.some.inj hu
    exact ⟨fun _ h => absurd h hcaught, fun _ => ⟨(if_neg hcaught).symm, rfl, (if_pos rfl).symm⟩⟩

end CaughtFormatsAux

open CaughtFormatsAux in
/-- After a catch and an inference, the update does what it should if and only if each input comes back, which for a caught one takes
that the inference left its shape, and each caught output still has its origin format, one that is a format. -/
theorem updateFormatAndShape_faithful_iff (transfer : ShapeTransfer) (op inferred : TensorOpDesc)
    (hin : Positions.Indexes op.inputNameIdx op.inputsDesc.length)
    (hout : Positions.Indexes op.outputNameIdx op.outputsDesc.length)
    (hinf : (init op).catchFormatAndShape.opDesc.Inferred inferred) :
    Faithful transfer op inferred (catchAndUpdate transfer op inferred) ↔
    (∀ (i : Nat) (d d' : TensorDescriptor), op.inputsDesc[i]? = some d → d.isValid = true → inferred.inputsDesc[i]? = some d' →
      d.InputComesBack d') ∧
    ∀ (i : Nat) (d d' : TensorDescriptor), op.outputsDesc[i]? = some d → inferred.outputsDesc[i]? = some d' →
      d.OutputComesBack d' := by
  have hcaught : (caughtOf op).opDesc.Inferred inferred := hinf
  have hinferred : ∀ (i : Nat) (d d' : TensorDescriptor), op.inputsDesc[i]? = some d → d.isValid = true →
      inferred.inputsDesc[i]? = some d' → (if d.Caught then shownInput d else d).Inferred d' := by
    intro i d d' hd hvalid hd'
    have hslot := congrArg (fun v : InSlot => v.2.2) (inSlot_caughtOf hin hd)
    have hshown : (caughtOf op).opDesc.inputsDesc[i]? = some (if d.Caught then shownInput d else d) := by
      refine hslot.trans ?_
      by_cases hcaught : d.Caught
      · rw [if_pos ⟨hvalid, hcaught⟩, if_pos hcaught]
      · rw [if_neg fun h => hcaught h.2, if_neg hcaught]
    obtain ⟨hi, hshown⟩ := List.getElem?_eq_some_iff.mp hshown
    obtain ⟨hi', hd'⟩ := List.getElem?_eq_some_iff.mp hd'
    have hone := hcaught.inputs.get hi hi'
    rwa [get_eq_getElem, get_eq_getElem, hshown, hd'] at hone
  have hlen : op.outputsDesc.length = inferred.outputsDesc.length := by
    rw [← hinf.outputs.length_eq, catchFormatAndShape,
      @foldl_frame _ _ _ _ (fun st : NodeShapeTransUtils => st.opDesc.outputsDesc.length)
        (fun st k => by unfold catchOutput; grind [TensorOpDesc.setOutput]),
      @foldl_frame _ _ _ _ (fun st : NodeShapeTransUtils => st.opDesc.outputsDesc.length)
        (fun st k => by unfold catchInput; grind [TensorOpDesc.setInput])]
    rfl
  constructor
  · intro h
    have hkept := h.kept catchAndUpdate_true
    refine ⟨fun i d d' hd hvalid hd' => ?_, fun i d d' hd hd' => ?_⟩
    · obtain ⟨u, hu⟩ : ∃ u, (catchAndUpdate transfer op inferred).2.inputsDesc[i]? = some u := by
        rw [catchAndUpdate_input hin hd hd']
        unfold updateIn
        grind
      exact (restored_input_iff hvalid (hinferred i d d' hd hvalid hd') ((catchAndUpdate_input hin hd hd').symm.trans hu)).mp
        (h.inputs hkept i d d' u hd hvalid hd' hu)
    · obtain ⟨u, hu⟩ : ∃ u, (catchAndUpdate transfer op inferred).2.outputsDesc[i]? = some u := by
        rw [catchAndUpdate_output hout hlen hkept hd hd']
        unfold updateOut
        grind
      exact (restored_output_iff (hkept i d d' hd hd') ((catchAndUpdate_output hout hlen hkept hd hd').symm.trans hu)).mp
        (h.outputs hkept i d d' u hd hd' hu)
  · rintro ⟨hinputs, houtputs⟩
    have hkept : OutputsKept op inferred := fun i d d' hd hd' hcaught => (houtputs i d d' hd hd' hcaught).1
    refine ⟨fun _ => hkept, fun _ i d d' u hd hvalid hd' hu => ?_, fun _ i d d' u hd hd' hu => ?_, fun h => absurd hkept h⟩
    · exact (restored_input_iff hvalid (hinferred i d d' hd hvalid hd') ((catchAndUpdate_input hin hd hd').symm.trans hu)).mpr
        (hinputs i d d' hd hvalid hd')
    · exact (restored_output_iff (hkept i d d' hd hd') ((catchAndUpdate_output hout hlen hkept hd hd').symm.trans hu)).mpr
        (houtputs i d d' hd hd')

namespace CaughtFormatsWitness

/-- From `NCHW` to `NC1HWC0`, with blocks of sixteen channels. -/
def toBlocks : ShapeTransfer
  | [n, c, h, w], 0, 3, .float16 => [n, (c + 15) / 16, h, w, 16]
  | dims, _, _, _ => dims

/-- A tensor in `NC1HWC0` whose origin format is `NCHW`. -/
def blocked : TensorDescriptor :=
  { dtype := .float16, shape := ⟨[1, 2, 4, 4, 16]⟩, layout := 3, originShape := some [1, 32, 4, 4], originFormat := some 0 }

/-- An operator of one input and one output. -/
def relu : TensorOpDesc :=
  { inputsDesc := [blocked], inputNameIdx := [("x", 0)], outputsDesc := [blocked], outputNameIdx := [("y", 0)] }

/-- After an inference that sets the shape of the output and may set its format. -/
def inferredRelu (layout : Format) : TensorOpDesc :=
  { relu with
    inputsDesc := [{ blocked with layout := 0, shape := ⟨[1, 32, 4, 4]⟩ }]
    outputsDesc := [{ blocked with layout, shape := ⟨[1, 64, 4, 4]⟩ }] }

theorem inferred_relu (layout : Format) (h : layout.kept = layout) :
    (init relu).catchFormatAndShape.opDesc.Inferred (inferredRelu layout) := by
  refine ⟨.cons ⟨⟨[1, 32, 4, 4]⟩, .float16, 0, .inr ⟨0, rfl⟩, rfl⟩ .nil,
    .cons ⟨⟨[1, 64, 4, 4]⟩, .float16, layout, .inr ⟨layout, h.symm⟩, rfl⟩ .nil⟩

theorem updateFormatAndShape_faithful_relu :
    Faithful toBlocks relu (inferredRelu 0) (catchAndUpdate toBlocks relu (inferredRelu 0)) := by
  refine (updateFormatAndShape_faithful_iff toBlocks relu (inferredRelu 0) (by decide) (by decide)
    (inferred_relu 0 (by decide))).mpr ⟨fun i d d' hd _ hd' => ?_, fun i d d' hd hd' => ?_⟩
  · cases i with
    | zero =>
      obtain rfl := Option.some.inj hd
      obtain rfl := Option.some.inj hd'
      unfold TensorDescriptor.InputComesBack
      decide
    | succ i => simp [relu] at hd
  · cases i with
    | zero =>
      obtain rfl := Option.some.inj hd
      obtain rfl := Option.some.inj hd'
      exact fun _ => by decide
    | succ i => simp [relu] at hd

/-- The inference set the format of the output to `NHWC`, and the update returns true. -/
theorem updateFormatAndShape_faithful_false :
    ¬ ∀ (transfer : ShapeTransfer) (op inferred : TensorOpDesc), Positions.Indexes op.inputNameIdx op.inputsDesc.length →
      Positions.Indexes op.outputNameIdx op.outputsDesc.length → (init op).catchFormatAndShape.opDesc.Inferred inferred →
      Faithful transfer op inferred (catchAndUpdate transfer op inferred) := by
  intro h
  have hone := h toBlocks relu (inferredRelu 1) (by decide) (by decide) (inferred_relu 1 (by decide))
  have htrue : (catchAndUpdate toBlocks relu (inferredRelu 1)).1 = true := by decide
  have hkept := hone.kept htrue 0 blocked _ rfl rfl (by decide)
  exact absurd hkept (by decide)

end CaughtFormatsWitness

end Metadef
