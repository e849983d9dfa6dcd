import Metadef.Node

/-!
# Adding and dropping anchors of a node

The functions of `node_utils.cc` that change which data anchors a node holds.
-/

namespace Metadef

namespace NodeUtils

/-- Numbers anchors from an index on. -/
def renumber : List AnchorId → Nat → Heap → Heap
  | [], _, h => h
  | a :: l, i, h => renumber l (i + 1) (h.setIdx a i)

/-- `ClearInDataAnchor`: drops an input of a node and numbers the inputs behind it anew. -/
def clearInDataAnchor (node : Option NodeId) (inDataAnchor : Option AnchorId) : Cmd Heap Bool := do
  let some node := node | return false
  let some inDataAnchor := inDataAnchor | return false
  let h ← get
  let anchors := (h.node node).inDataAnchors
  let some i := anchors.findIdx? (· = inDataAnchor) | return false
  set (renumber (anchors.drop (i + 1)) i (h.setAnchorsOf node .inData (anchors.eraseIdx i)))
  return true

/-- The descriptor `AppendInputAnchor` and `AppendOutputAnchor` add. -/
def dataDesc : GeTensorDesc := {}

/-- Adds descriptors one by one until one fails. -/
def addDescs (add : OpDesc → Bool × OpDesc) : Nat → OpDesc → Bool × OpDesc
  | 0, op => (true, op)
  | m + 1, op =>
    let r := add op
    if r.1 then addDescs add m r.2 else (false, r.2)

/-- Erases descriptors one by one while there are more than a number, or until one fails. The first argument bounds the
steps: each erases one. -/
def clearDescs (size : OpDesc → Nat) (clear : OpDesc → Nat → Bool × OpDesc) (num : Nat) : Nat → OpDesc → Bool × OpDesc
  | 0, op => (true, op)
  | m + 1, op =>
    if num < size op then
      let r := clear op num
      if r.1 then clearDescs size clear num m r.2 else (false, r.2)
    else (true, op)

/-- `AppendInputAnchor`: adds inputs up to a number, descriptors first. -/
def appendInputAnchor (node : Option NodeId) (num : Nat) : Cmd Heap Bool := do
  let some node := node | return false
  let h ← get
  if !(← Node.editOp node (addDescs (·.addInputDesc dataDesc) (num - (h.desc node).getInputsSize))) then return false
  modify (Node.appendAnchors node .inData (num - (h.node node).inDataAnchors.length))
  return true

/-- `RemoveInputAnchor`: drops the inputs from a number on. -/
def removeInputAnchor (node : Option NodeId) (num : Nat) : Cmd Heap Bool := do
  let some node := node | return false
  let h ← get
  if !(← Node.editOp node (clearDescs OpDesc.getInputsSize OpDescUtils.clearInputDesc num (h.desc node).inputsDesc.length))
    then return false
  let _ ← Node.editOp node fun op => ((op.updateInputName op.inputNameIdx).1,
    ((op.updateInputName op.inputNameIdx).2).resizeIsInputConst num)
  modify fun h => h.setAnchorsOf node .inData ((h.node node).inDataAnchors.take num)
  return true

/-- `AppendOutputAnchor`: adds outputs up to a number, descriptors first. -/
def appendOutputAnchor (node : Option NodeId) (num : Nat) : Cmd Heap Bool := do
  let some node := node | return false
  let h ← get
  if !(← Node.editOp node (addDescs (·.addOutputDesc dataDesc) (num - (h.desc node).getOutputsSize))) then return false
  modify (Node.appendAnchors node .outData (num - (h.node node).outDataAnchors.length))
  return true

/-- `RemoveOutputAnchor`: drops the outputs from a number on. -/
def removeOutputAnchor (node : Option NodeId) (num : Nat) : Cmd Heap Bool := do
  let some node := node | return false
  let h ← get
  if !(← Node.editOp node (clearDescs OpDesc.getOutputsSize OpDescUtils.clearOutputDesc num (h.desc node).outputsDesc.length))
    then return false
  let _ ← Node.editOp node fun op => op.updateOutputName op.outputNameIdx
  modify fun h => h.setAnchorsOf node .outData ((h.node node).outDataAnchors.take num)
  return true

end NodeUtils

/-!
## Edges out of a node

The functions of `node_utils.cc` that follow the edges out of a node, and move them to another.
-/

namespace NodeUtils

/-! ## Following -/

/-- The loop of `GetSingleOutputNodeOfNthLayer`: every round reads the outputs of the node it started from. -/
def layers (h : Heap) (src : NodeId) : Nat → Option NodeId → Option (Option NodeId)
  | 0, cur => some cur
  | i + 1, _ =>
    match Node.getOutDataNodes h src with
    | [next] => layers h src i (some next)
    | _ => none

/-- `GetSingleOutputNodeOfNthLayer`: the status, and what the last argument points to. -/
def getSingleOutputNodeOfNthLayer (h : Heap) (src : Option NodeId) (depth : Int) (dst : Option NodeId) : Bool × Option NodeId :=
  match src with
  | none => (false, dst)
  | some src =>
    if depth < 1 then (false, dst)
    else
      match layers h src depth.toNat none with
      | none => (false, dst)
      | some cur => (true, cur)

/-! ## Moving -/

/-- Moves an edge from one output to another. An edge that cannot be unlinked stays, and one that cannot be linked again is lost. -/
def moveEdge (link : AnchorId → Option AnchorId → Cmd Heap Bool) (old new : AnchorId) (peer : AnchorId) : Cmd Heap Bool := do
  if !(← Anchor.unlink old (some peer)) then return false
  link new (some peer)

/-- Moves the edges of a data output, those to data inputs first. -/
def moveOutDataEdges (old new : AnchorId) : Cmd Heap Bool := do
  let h ← get
  Cmd.each (moveEdge OutDataAnchor.linkTo old new) (OutDataAnchor.getPeerInDataAnchors h old)
  let h ← get
  Cmd.each (moveEdge OutDataAnchor.linkToControl old new) (OutDataAnchor.getPeerInControlAnchors h old)
  return true

/-- `MoveOutputEdges`: each output's edges to the output of the same index, the control output's last. -/
def moveOutputEdges (originNode newNode : Option NodeId) : Cmd Heap Bool := do
  let some originNode := originNode | return false
  let some newNode := newNode | return false
  let h ← get
  let originOutDataAnchors := (h.node originNode).outDataAnchors
  let newOutDataAnchors := (h.node newNode).outDataAnchors
  if originOutDataAnchors.length ≠ newOutDataAnchors.length then return false
  Cmd.each (fun e => moveOutDataEdges e.2 e.1) (newOutDataAnchors.zip originOutDataAnchors)
  let h ← get
  let originOutControlAnchor := (h.node originNode).outControlAnchor
  let newOutControlAnchor := (h.node newNode).outControlAnchor
  Cmd.each (fun peer => OutControlAnchor.linkTo newOutControlAnchor (some peer))
    (OutControlAnchor.getPeerInControlAnchors h originOutControlAnchor)
  let h ← get
  Cmd.each (fun peer => OutControlAnchor.linkToData newOutControlAnchor (some peer))
    (OutControlAnchor.getPeerInDataAnchors h originOutControlAnchor)
  Anchor.unlinkAll originOutControlAnchor
  return true

end NodeUtils

end Metadef
