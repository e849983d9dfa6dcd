import Metadef.TensorAdapter

/-!
# Formats caught before an inference

`NodeShapeTransUtils` of `transformer_utils.cc`. Before the shapes of an operator are inferred, the formats that are not the origin
formats are kept in vectors beside the descriptors, and the origin formats set in their place; afterwards the formats kept are put
back. What a shape becomes in another format is a matter of the transformer.
-/

namespace Metadef

/-- A descriptor, as far as its tensor descriptors and their names are concerned. -/
structure TensorOpDesc where
  inputsDesc : List TensorDescriptor := []
  inputNameIdx : OrderedMap String Nat := []
  outputsDesc : List TensorDescriptor := []
  outputNameIdx : OrderedMap String Nat := []

/-- `IsValid`. -/
def TensorDescriptor.isValid (d : TensorDescriptor) : Bool := !(d.dtype = .undefined && d.layout = Format.reserved)

/-- `SetShape`. -/
def TensorDescriptor.setShape (d : TensorDescriptor) (shape : GeShape) : TensorDescriptor := { d with shape }

namespace TensorOpDesc

variable (op : TensorOpDesc)

/-- `MutableInputDesc`, which does not give one that is not valid. -/
def mutableInputDesc (index : Nat) : Option TensorDescriptor :=
  match op.inputsDesc[index]? with
  | none => none
  | some d => if d.isValid then some d else none

/-- `MutableOutputDesc`. -/
def mutableOutputDesc (index : Nat) : Option TensorDescriptor := op.outputsDesc[index]?

def setInput (index : Nat) (d : TensorDescriptor) : TensorOpDesc := { op with inputsDesc := op.inputsDesc.set index d }

def setOutput (index : Nat) (d : TensorDescriptor) : TensorOpDesc := { op with outputsDesc := op.outputsDesc.set index d }

end TensorOpDesc

/-- `GRAPH_FAILED`. -/
def graphFailed : UInt32 := 0xFFFFFFFF

/-- The descriptor with what was caught of it. -/
structure NodeShapeTransUtils where
  opDesc : TensorOpDesc
  mapFormatIn : List Format := []
  mapOriFormatIn : List Format := []
  mapDtypeIn : List DataType := []
  mapFormatOut : List Format := []
  mapOriFormatOut : List Format := []
  mapDtypeOut : List DataType := []
  inNum : Nat := 0
  outNum : Nat := 0

namespace NodeShapeTransUtils

/-- `Init`, on a descriptor that is there. -/
def init (opDesc : TensorOpDesc) : NodeShapeTransUtils :=
  let inNum := opDesc.inputNameIdx.length
  let outNum := opDesc.outputNameIdx.length
  { opDesc, inNum, outNum
    mapFormatIn := List.replicate inNum Format.reserved
    mapOriFormatIn := List.replicate inNum Format.reserved
    mapDtypeIn := List.replicate inNum .undefined
    mapFormatOut := List.replicate outNum Format.reserved
    mapOriFormatOut := List.replicate outNum Format.reserved
    mapDtypeOut := List.replicate outNum .undefined }

/-! ## Catching -/

/-- One turn of the loop of `CatchFormatAndShape` over inputs. -/
def catchInput (st : NodeShapeTransUtils) (i : Nat) : NodeShapeTransUtils :=
  match st.opDesc.mutableInputDesc i with
  | none => st
  | some d =>
    let format := d.layout
    let oriFormat := d.getOriginFormat
    if format = oriFormat then st
    else
      { st with
        mapFormatIn := st.mapFormatIn.set i format
        mapOriFormatIn := st.mapOriFormatIn.set i oriFormat
        mapDtypeIn := st.mapDtypeIn.set i d.dtype
        opDesc := st.opDesc.setInput i ((d.setFormat oriFormat).setShape (d.setFormat oriFormat).getOriginShape) }

/-- One turn of the loop over outputs, which keep their shape. -/
def catchOutput (st : NodeShapeTransUtils) (i : Nat) : NodeShapeTransUtils :=
  match st.opDesc.mutableOutputDesc i with
  | none => st
  | some d =>
    let format := d.layout
    let oriFormat := d.getOriginFormat
    if format = oriFormat then st
    else
      { st with
        mapFormatOut := st.mapFormatOut.set i format
        mapOriFormatOut := st.mapOriFormatOut.set i oriFormat
        mapDtypeOut := st.mapDtypeOut.set i d.dtype
        opDesc := st.opDesc.setOutput i (d.setFormat oriFormat) }

/-- `CatchFormatAndShape`, which always returns true. -/
def catchFormatAndShape (st : NodeShapeTransUtils) : NodeShapeTransUtils :=
  (List.range st.outNum).foldl catchOutput ((List.range st.inNum).foldl catchInput st)

/-! ## Putting back -/

/-- What `GetShapeAccordingToFormat` makes of dimensions in one format: the dimensions in another, for a data type. -/
abbrev ShapeTransfer := List Int64 → Format → Format → DataType → List Int64

variable (transfer : ShapeTransfer)

/-- One turn of the loop of `UpdateFormatAndShape` over inputs. -/
def updateInput (st : NodeShapeTransUtils) (i : Nat) : NodeShapeTransUtils :=
  match st.opDesc.mutableInputDesc i with
  | none => st
  | some d =>
    let currFormat := st.mapFormatIn.getD i Format.reserved
    if currFormat = Format.reserved then
      { st with opDesc := st.opDesc.setInput i ((d.setOriginFormat d.layout).setOriginShape d.shape) }
    else
      let oriFormat := d.layout
      let oriShape := d.shape
      if oriFormat = currFormat then st
      else
        let outDims := transfer oriShape.getDims oriFormat currFormat (st.mapDtypeIn.getD i .undefined)
        { st with opDesc := st.opDesc.setInput i ((d.setFormat currFormat).setShape ⟨outDims⟩) }

/-- One turn of the loop over outputs, with what is returned when it does not go on. -/
def updateOutput (st : NodeShapeTransUtils) (i : Nat) : Option UInt32 × NodeShapeTransUtils :=
  match st.opDesc.mutableOutputDesc i with
  | none => (none, st)
  | some d =>
    if st.mapOriFormatOut.getD i Format.reserved = Format.reserved then
      (none, { st with opDesc := st.opDesc.setOutput i ((d.setOriginFormat d.layout).setOriginShape d.shape) })
    else
      let oriShape := d.shape
      let currFormat := d.layout
      if currFormat ≠ st.mapOriFormatOut.getD i Format.reserved then (some graphFailed, st)
      else
        let d := d.setOriginShape oriShape
        let savedFormat := st.mapFormatOut.getD i Format.reserved
        if currFormat = savedFormat then (none, { st with opDesc := st.opDesc.setOutput i d })
        else
          let d := d.setFormat savedFormat
          let outDims := transfer oriShape.getDims currFormat savedFormat d.dtype
          (none, { st with opDesc := st.opDesc.setOutput i (d.setShape ⟨outDims⟩) })

/-- The loop over outputs. The function returns a `bool`: a status is true when it is not zero. -/
def updateOutputs : List Nat → NodeShapeTransUtils → Bool × NodeShapeTransUtils
  | [], st => (true, st)
  | i :: is, st =>
    match updateOutput transfer st i with
    | (some status, st) => (status ≠ 0, st)
    | (none, st) => updateOutputs is st

/-- `UpdateFormatAndShape`. -/
def updateFormatAndShape (st : NodeShapeTransUtils) : Bool × NodeShapeTransUtils :=
  updateOutputs transfer (List.range st.outNum) ((List.range st.inNum).foldl (updateInput transfer) st)

end NodeShapeTransUtils

end Metadef
