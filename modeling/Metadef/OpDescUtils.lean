import Metadef.ComputeGraph

/-!
# Descriptors of a node

The functions of `op_desc_utils.cc` that read or change the descriptors of a node by the links of its anchors.
-/

namespace Metadef

namespace OpDescUtils

/-! ## Clearing -/

/-- The indices of the inputs of a node without a data source. -/
def unlinkedInputs (h : Heap) (n : NodeId) : List Nat :=
  ((h.node n).inDataAnchors.filter fun a => (InDataAnchor.getPeerOutAnchor h a).isNone).map fun a => (h.anchor a).idx.toNat

/-- The indices of the outputs of a node without a data input to feed. -/
def unlinkedOutputs (h : Heap) (n : NodeId) : List Nat :=
  ((h.node n).outDataAnchors.filter fun a => (OutDataAnchor.getPeerInDataAnchors h a).isEmpty).map fun a => (h.anchor a).idx.toNat

/-- `ClearInputDesc` of a node: erases the descriptors of its inputs without a source. -/
def clearInputDescOf (node : Option NodeId) : Cmd Heap Bool := do
  let some node := node | return false
  let h ← get
  Node.editOp node fun op => (true, clearInputDescs op (unlinkedInputs h node))

/-- `ClearOutputDesc` of a node: erases the descriptors of its outputs that feed nothing. -/
def clearOutputDescOf (node : Option NodeId) : Cmd Heap Bool := do
  let some node := node | return false
  let h ← get
  Node.editOp node fun op => (true, clearOutputDescs op (unlinkedOutputs h node))

end OpDescUtils

/-!
## Constant inputs

The functions of `op_desc_utils.cc` that tell the inputs of a node fed by constants from the others. What an input is fed by is read
from the status of its anchor when these were set, from the node that feeds it otherwise.
-/

inductive AnchorStatus where
  | suspend | const | data | reserved
  deriving DecidableEq, Repr

/-- What is kept of nodes besides their links: the attribute `_parent_node_index` of a descriptor, whether the statuses of the anchors
of a node were set, and the status of each anchor. -/
structure InputMarks where
  parentNodeIndex : OpId → Option Int := fun _ => none
  anchorStatusUpdated : NodeId → Bool := fun _ => false
  status : AnchorId → AnchorStatus := fun _ => .suspend

namespace NodeUtils

/-- `GetParentInput`: what feeds the input of the parent node that a node of a subgraph stands for. The index is read as 32 bits
without a sign, and the input is looked up by 32 bits with one. -/
def getParentInput (x : InputMarks) (h : Heap) (node : NodeId) : Option NodeId := do
  let parentIndex ← (x.parentNodeIndex (h.node node).op).filter (· ≤ 4294967295)
  let graph ← (h.node node).ownerGraph
  let parentNode ← (h.graph graph).parentNode
  let inAnchor ← Node.getInDataAnchor h parentNode (parentIndex.bmod 4294967296)
  let peerOutAnchor ← InDataAnchor.getPeerOutAnchor h inAnchor
  return h.owner peerOutAnchor

end NodeUtils

namespace OpDescUtils

variable (x : InputMarks) (h : Heap)

/-! ## The constants -/

/-- The constants an input gives `GetConstInputs`, with the function for a Switch in between. -/
def constInputsAt (constInputs : NodeId → List NodeId) (node : NodeId) (inAnchor : AnchorId) : List NodeId :=
  match InDataAnchor.getPeerOutAnchor h inAnchor with
  | none => []
  | some outAnchor =>
    let inNode := h.owner outAnchor
    if Node.getType h inNode = "Const" then [inNode]
    else if Node.getType h inNode = "Switch" ∧ Node.getType h node = "MatMul" then constInputs inNode
    else if Node.getType h inNode = "Data" then
      match NodeUtils.getParentInput x h inNode with
      | some parent => if Node.getType h parent = "Const" then [parent] else []
      | none => []
    else []

/-- `GetConstInputs`. It calls itself for the Switches that feed a MatMul, and no more for these. -/
def getConstInputs (node : NodeId) : List NodeId :=
  (h.node node).inDataAnchors.flatMap
    (constInputsAt x h (fun inNode => (h.node inNode).inDataAnchors.flatMap (constInputsAt x h (fun _ => []) inNode)) node)

/-! ## The others -/

/-- `GetNonConstInputsSize`. -/
def getNonConstInputsSize (node : NodeId) : Nat :=
  if x.anchorStatusUpdated node then (h.node node).inDataAnchors.countP fun anchor => x.status anchor = .data
  else if (Node.getInDataNodes h node).length < (getConstInputs x h node).length then 0
  else (Node.getInDataNodes h node).length - (getConstInputs x h node).length

/-- The loops over the inputs that count those that are not passed over: the index of the one whose count is asked for. -/
def countedIndex (counts : AnchorId → Bool) (indexNonConst : Nat) : List AnchorId → Nat → Option Nat → Option Nat
  | [], _, index => index
  | anchor :: anchors, i, index =>
    if counts anchor then
      countedIndex counts indexNonConst anchors (i + 1) (if indexNonConst = i then some (h.anchor anchor).idx.toNat else index)
    else countedIndex counts indexNonConst anchors i index

/-- Whether an input is fed by a node that is not a constant. -/
def fedByOther (anchor : AnchorId) : Bool :=
  match InDataAnchor.getPeerOutAnchor h anchor with
  | none => false
  | some peerAnchor => Node.getType h (h.owner peerAnchor) ≠ "Const"

/-- `GetNonConstInputIndex`, the index when it returns true. -/
def getNonConstInputIndex (node : NodeId) (indexNonConst : Nat) : Option Nat :=
  if x.anchorStatusUpdated node then
    countedIndex h (fun anchor => x.status anchor = .data) indexNonConst (h.node node).inDataAnchors 0 none
  else countedIndex h (fedByOther h) indexNonConst (h.node node).inDataAnchors 0 none

/-- The search of `IsNonConstInput` for the inputs of an index. It ends at one without a source. -/
def searchInput (index : Int) : List AnchorId → Bool → Bool
  | [], ret => ret
  | anchor :: anchors, ret =>
    if (h.anchor anchor).idx ≠ index then searchInput index anchors ret
    else match InDataAnchor.getPeerOutAnchor h anchor with
      | none => ret
      | some peerAnchor => searchInput index anchors (Node.getType h (h.owner peerAnchor) ≠ "Const")

/-- `IsNonConstInput`. -/
def isNonConstInput (node : NodeId) (index : Nat) : Bool :=
  if index < (h.node node).inDataAnchors.length then
    if x.anchorStatusUpdated node then (Node.getInDataAnchor h node index).any fun anchor => x.status anchor = .data
    else searchInput h index (h.node node).inDataAnchors false
  else false

end OpDescUtils

end Metadef
