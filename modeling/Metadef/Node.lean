import Metadef.Anchor

/-!
# Nodes

The functions of `node.cc`: making a node with its anchors, reading its anchors and neighbours, and linking a new input.
-/

namespace Metadef

namespace Node

/-! ## Making -/

/-- Appends a new data anchor of a class, whose index is its position. -/
def appendAnchor (n : NodeId) (k : AnchorKind) (h : Heap) : Heap :=
  let a := h.anchorCount
  let l := h.anchorsOf n k
  ({ h with anchorCount := a + 1 }.setAnchor a { kind := k, ownerNode := n, idx := l.length }).setAnchorsOf n k (l ++ [a])

/-- Appends as many data anchors of a class. -/
def appendAnchors (n : NodeId) (k : AnchorKind) : Nat → Heap → Heap
  | 0, h => h
  | m + 1, h => appendAnchors n k m (appendAnchor n k h)

/-- A node over a descriptor, with its control anchors and no data anchors. -/
def bare (op : OpId) (ownerGraph : Option GraphId) (h : Heap) : Heap :=
  let a := h.anchorCount
  let n := h.nodeCount
  let h := { h with anchorCount := a + 2, nodeCount := n + 1 }
  let h := h.setAnchor a { kind := .inControl, ownerNode := n, idx := -1 }
  let h := h.setAnchor (a + 1) { kind := .outControl, ownerNode := n, idx := -1 }
  h.setNode n { op, ownerGraph, inControlAnchor := a, outControlAnchor := a + 1 }

/-- A node over a descriptor, initialised: a data anchor for each input and each output. -/
def make (op : OpId) (ownerGraph : Option GraphId) : Cmd Heap NodeId := do
  let h ← get
  let n := h.nodeCount
  set (appendAnchors n .outData (h.op op).getOutputsSize
    (appendAnchors n .inData (h.op op).getAllInputsSize (bare op ownerGraph h)))
  return n

/-! ## Reading -/

variable (h : Heap) (n : NodeId)

def getName : String := (h.desc n).getName

def getType : String := (h.desc n).getType

/-- The input at an index, none outside the bounds. -/
def getInDataAnchor (idx : Int) : Option AnchorId :=
  if idx < 0 then none else (h.node n).inDataAnchors[idx.toNat]?

/-- The output at an index, none outside the bounds. -/
def getOutDataAnchor (idx : Int) : Option AnchorId :=
  if idx < 0 then none else (h.node n).outDataAnchors[idx.toNat]?

/-- The sources of the inputs whose first peer is a data output. -/
def getInDataNodes : List NodeId :=
  ((h.node n).inDataAnchors.filterMap (InDataAnchor.getPeerOutAnchor h)).map h.owner

/-- The sources of the inputs, then the data and the control sources of the control input. -/
def getInNodes : List NodeId :=
  getInDataNodes h n ++ (InControlAnchor.getPeerOutDataAnchors h (h.node n).inControlAnchor).map h.owner ++
    (InControlAnchor.getPeerOutControlAnchors h (h.node n).inControlAnchor).map h.owner

/-- The control sources of the control input. -/
def getInControlNodes : List NodeId := (InControlAnchor.getPeerOutControlAnchors h (h.node n).inControlAnchor).map h.owner

/-- The nodes fed by the outputs. -/
def getOutDataNodes : List NodeId :=
  ((h.node n).outDataAnchors.flatMap (OutDataAnchor.getPeerInDataAnchors h)).map h.owner

/-- The nodes fed by the outputs, then those the control output controls. -/
def getOutNodes : List NodeId :=
  getOutDataNodes h n ++ (OutControlAnchor.getPeerInControlAnchors h (h.node n).outControlAnchor).map h.owner

/-- The nodes the outputs control, then those of all peers of the control output. -/
def getOutControlNodes : List NodeId :=
  ((h.node n).outDataAnchors.flatMap (OutDataAnchor.getPeerInControlAnchors h)).map h.owner ++
    (h.peers (h.node n).outControlAnchor).map h.owner

/-- The nodes the outputs feed or control, then those of all peers of the control output. -/
def getOutAllNodes : List NodeId :=
  (((h.node n).outDataAnchors.flatMap fun a =>
    OutDataAnchor.getPeerInDataAnchors h a ++ OutDataAnchor.getPeerInControlAnchors h a).map h.owner) ++
    (h.peers (h.node n).outControlAnchor).map h.owner

/-! ## Linking a new input -/

/-- Writes a descriptor changed by one of its functions, and returns the function's status. -/
def editOp (n : NodeId) (f : OpDesc → Bool × OpDesc) : Cmd Heap Bool := do
  let h ← get
  let r := f (h.desc n)
  set (h.setOp (h.node n).op r.2)
  return r.1

/-- Appends an input to a node and links it to an output, whatever comes of the link. -/
def linkNewInput (this : NodeId) (out : AnchorId) : Cmd Heap Bool := do
  modify (appendAnchor this .inData)
  let h ← get
  let _ ← OutDataAnchor.linkTo out (h.node this).inDataAnchors.getLast?
  return true

/-- Adds an input fed by the one output of a node. -/
def addLinkFrom (this : NodeId) (inputNode : Option NodeId) : Cmd Heap Bool := do
  let some inputNode := inputNode | return false
  let h ← get
  let [out] := (h.node inputNode).outDataAnchors | return false
  if !(← editOp this fun op => op.addInputDesc ((h.desc inputNode).getOutputDesc 0)) then return false
  linkNewInput this out

/-- Feeds the input at an index, or a new one past the end, by the one output of a node. -/
def addLinkFromAt (this : NodeId) (index : Nat) (inputNode : Option NodeId) : Cmd Heap Bool := do
  let some inputNode := inputNode | return false
  let h ← get
  let [out] := (h.node inputNode).outDataAnchors | return false
  if !(← editOp this fun op => op.addInputDescAt index ((h.desc inputNode).getOutputDesc 0)) then return false
  match (h.node this).inDataAnchors[index]? with
  | some a => do
    let _ ← OutDataAnchor.linkTo out (some a)
    return true
  | none => linkNewInput this out

/-- Feeds the input of a name, or a new one when the name is unknown, by the one output of a node. -/
def addLinkFromNamed (this : NodeId) (name : String) (inputNode : Option NodeId) : Cmd Heap Bool := do
  let some inputNode := inputNode | return false
  let h ← get
  let [out] := (h.node inputNode).outDataAnchors | return false
  let index := (h.desc this).getInputIndexByName name
  if index ≠ -1 then
    let some a := (h.node this).inDataAnchors[index.toNat]? | return false
    let _ ← OutDataAnchor.linkTo out (some a)
  else
    let _ ← linkNewInput this out
  editOp this fun op => op.addInputDescNamed name ((h.desc inputNode).getOutputDesc 0)

end Node

end Metadef
