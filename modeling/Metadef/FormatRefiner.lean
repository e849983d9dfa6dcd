import Metadef.RefRelation

/-!
# Format inference

The spreading of origin formats in `format_refiner.cc`. From each anchor point the format of an input is set to the output that
feeds it, and the format of an output to the inputs it feeds, wherever it is not known yet; what a place is related to is set with
it. A visit to one input, or of one input from an output, is a step.
-/

namespace Metadef

/-! ## Formats -/

namespace Format

/-- The primary format, below the sub-format. -/
def getPrimaryFormat (format : Format) : Nat := format % 256

/-- What a format that was set reads back as. It is kept as a text, and formats without one read back as reserved. -/
def kept (format : Format) : Format :=
  if getPrimaryFormat format ≤ 41 ∧ getPrimaryFormat format ≠ 28 then format % 2 ^ 24 else reserved

end Format

/-- A tensor descriptor, as far as formats are concerned. -/
structure FormatDesc where
  originFormat : Format := Format.nd
  format : Format := Format.nd
  dimNum : Nat := 0
  dataTypeUndefined : Bool := false
  deriving DecidableEq, Repr

namespace FormatDesc

/-- Sets the origin format and the format. -/
def setFormats (d : FormatDesc) (format : Format) : FormatDesc := { d with originFormat := format.kept, format := format.kept }

def isValid (d : FormatDesc) : Bool := !(d.dataTypeUndefined && d.format = Format.reserved)

end FormatDesc

/-- The tensor descriptors of the descriptors. -/
structure TensorFormats where
  input : OpId → List FormatDesc := fun _ => []
  output : OpId → List FormatDesc := fun _ => []

namespace TensorFormats

variable (s : TensorFormats)

/-- The tensor descriptors on one side of a descriptor. -/
def descs (op : OpId) : InOutFlag → List FormatDesc
  | .nodeIn => s.input op
  | .nodeOut => s.output op

/-- The tensor descriptor at an index. -/
def find (op : OpId) (side : InOutFlag) (index : Int) : Option FormatDesc :=
  if index < 0 then none else (s.descs op side)[index.toNat]?

/-- `GetInputDesc` and `GetOutputDesc`: the descriptor at an index, the default one where there is none. -/
def getDesc (op : OpId) (side : InOutFlag) (index : Int) : FormatDesc := (s.find op side index).getD {}

/-- `UpdateInputDesc` and `UpdateOutputDesc` with the descriptor there in another format. Where there is none nothing changes. -/
def updateFormats (op : OpId) (side : InOutFlag) (index : Int) (format : Format) : TensorFormats :=
  if index < 0 then s
  else
    let l := (s.descs op side).modify index.toNat (·.setFormats format)
    match side with
    | .nodeIn => { s with input := Function.update s.input op l }
    | .nodeOut => { s with output := Function.update s.output op l }

/-- The origin format of a descriptor that is there. -/
def originAt (op : OpId) (side : InOutFlag) (index : Int) : Option Format := (s.find op side index).map FormatDesc.originFormat

end TensorFormats

/-! ## The state of inference -/

/-- What is left of the visits to a node. -/
inductive FormatVisit where
  /-- The source of an input, by `BackInferProcess`. -/
  | back (node : NodeId) (inAnchor : AnchorId)
  /-- The inputs an output feeds, by `ForwardInferProcess`. -/
  | forward (node : NodeId) (outDataAnchor : AnchorId)
  /-- One of them. -/
  | forwardTo (toBeSetFormat : Format) (peerInDataAnchor : AnchorId)
  deriving DecidableEq, Repr

/-- The anchor points not taken yet, the nodes queued, the visits left to the node taken last, and whether an error was met. -/
structure FormatRefiner where
  formats : TensorFormats := {}
  anchorPoints : List NodeId := []
  nodes : List NodeId := []
  visits : List FormatVisit := []
  failed : Bool := false

/-- The order in which an unordered set filled from a list is gone through: any, each item once. -/
structure CellOrder where
  turns : List RefCell → List RefCell
  nodup : ∀ l, (turns l).Nodup
  mem : ∀ l c, c ∈ turns l ↔ c ∈ l

/-- What inference reads and does not change: the graph, the relations and the functions of the operators. -/
structure FormatEnv where
  heap : Heap
  relations : RefRelations
  address : NodeId → Nat
  order : CellOrder
  /-- `InferOriginFormat` of a node: whether it succeeds, and the descriptors it leaves. -/
  inferOriginFormat : NodeId → TensorFormats → Bool × TensorFormats

namespace FormatRefiner

def kChangeDimNodes : List String := ["Permute", "ExpandDims", "Squeeze"]

variable (Γ : FormatEnv)

/-- The descriptor of a node. -/
def opOf (n : NodeId) : OpId := (Γ.heap.node n).op

/-- `ReflectionProcess`. -/
def reflectionProcess (reflection : List RefCell) (toBeSetFormat : Format) (s : FormatRefiner) : FormatRefiner :=
  { s with
    formats := (Γ.order.turns reflection).foldl
      (fun formats cell => formats.updateFormats (opOf Γ cell.node) cell.inOut cell.inOutIdx toBeSetFormat) s.formats
    nodes := s.nodes ++ (Γ.order.turns reflection).map RefCell.node }

/-- Whether the format of a place is to be set: it is not known, and the tensor is no scalar and, behind a node that changes
dimensions, not too small. -/
def toBeSet (formats : TensorFormats) (key : RefCell) : Bool :=
  let geTensorDesc := formats.getDesc (opOf Γ key.node) key.inOut key.inOutIdx
  geTensorDesc.originFormat = Format.nd && geTensorDesc.dimNum ≠ 0 &&
    !(kChangeDimNodes.contains (Node.getType Γ.heap key.node) && geTensorDesc.dimNum < 4)

/-- What a place is related to. -/
def reflectionOf (key : RefCell) : List RefCell := Γ.relations.lookUpRefRelations Γ.address key

/-- The part `BackInferProcess` and `ForwardInferProcess` share: sets the format of a place, and of what it is related to. A
node without relations infers its other formats, unless it is the output of the graph. -/
def inferTo (key : RefCell) (toBeSetFormat : Format) (s : FormatRefiner) : FormatRefiner :=
  if !toBeSet Γ s.formats key then s
  else if (reflectionOf Γ key).isEmpty then
    let formats := s.formats.updateFormats (opOf Γ key.node) key.inOut key.inOutIdx toBeSetFormat
    if key.inOut = .nodeIn ∧ Node.getType Γ.heap key.node = "NetOutput" then { s with formats }
    else
      match Γ.inferOriginFormat key.node formats with
      | (false, formats) => { s with formats, failed := true }
      | (true, formats) => { s with formats, nodes := s.nodes ++ [key.node] }
  else reflectionProcess Γ (reflectionOf Γ key) toBeSetFormat s

/-- The place of an anchor. -/
def keyOf (anchor : AnchorId) (side : InOutFlag) : RefCell :=
  { nodeName := Node.getName Γ.heap (Γ.heap.owner anchor), node := Γ.heap.owner anchor, inOut := side
    inOutIdx := (Γ.heap.anchor anchor).idx }

/-- The place a visit looks at, with the format it would set there. -/
def lookedAt (s : FormatRefiner) : FormatVisit → Option (RefCell × Format)
  | .back node inAnchor =>
    match s.formats.find (opOf Γ node) .nodeIn (Γ.heap.anchor inAnchor).idx with
    | none => none
    | some inputDesc =>
      if !inputDesc.isValid || inputDesc.originFormat = Format.nd then none
      else (InDataAnchor.getPeerOutAnchor Γ.heap inAnchor).map fun peer => (keyOf Γ peer .nodeOut, inputDesc.originFormat)
  | .forward .. => none
  | .forwardTo toBeSetFormat peerInDataAnchor => some (keyOf Γ peerInDataAnchor .nodeIn, toBeSetFormat)

/-- One step: the next visit, or the next node or anchor point when there is none left. There is none after an error, at the end
and where an output has no descriptor. -/
def step (s : FormatRefiner) : Option FormatRefiner :=
  if s.failed then none
  else
    match s.visits, s.nodes, s.anchorPoints with
    | .forward node outDataAnchor :: visits, _, _ =>
      match s.formats.find (opOf Γ node) .nodeOut (Γ.heap.anchor outDataAnchor).idx with
      | none => none
      | some outputDesc =>
        if outputDesc.originFormat = Format.nd then some { s with visits }
        else
          let peers := OutDataAnchor.getPeerInDataAnchors Γ.heap outDataAnchor
          some { s with visits := peers.map (FormatVisit.forwardTo outputDesc.originFormat) ++ visits }
    | visit :: visits, _, _ =>
      match lookedAt Γ s visit with
      | none => some { s with visits }
      | some (key, toBeSetFormat) => some (inferTo Γ key toBeSetFormat { s with visits })
    | [], node :: nodes, _ =>
      let backs := (Γ.heap.node node).inDataAnchors.map (FormatVisit.back node)
      let forwards := (Γ.heap.node node).outDataAnchors.map (FormatVisit.forward node)
      some { s with nodes, visits := backs ++ forwards }
    | [], [], anchorNode :: anchorPoints => some { s with anchorPoints, nodes := [anchorNode] }
    | [], [], [] => none

/-- The state after some steps. -/
def after : Nat → FormatRefiner → Option FormatRefiner
  | 0, s => some s
  | n + 1, s => (step Γ s).bind (after n)

end FormatRefiner

end Metadef
