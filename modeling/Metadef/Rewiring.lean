import Metadef.ComputeGraph
import Metadef.Isolate
import Metadef.FusionPattern

/-!
# Moving the edges of a node to another

The functions of `graph_utils.cc` that put a node behind an output, replace the anchors of a node by those of another, and copy
or move its control and input edges.
-/

namespace Metadef

namespace GraphUtils

/-! ## Putting a node behind an output -/

/-- The node types whose control edges stay at them. -/
def isSwitchType (type : String) : Bool := type = "Switch" || type = "RefSwitch" || type = "SwitchN"

/-- One round of `InsertNodeAfter`: a destination is fed by the new node, and the control edges of the source are moved
behind it. The old edge need not be there. -/
def insertBefore (src : AnchorId) (insertNode : NodeId) (newOut : Option AnchorId) (ctrlEdgeFlag : Bool)
    (dst : Option AnchorId) : Cmd Heap Bool := do
  let some dst := dst | return false
  let h ← get
  if (h.node (h.owner src)).ownerGraph ≠ (h.node (h.owner dst)).ownerGraph then return false
  let _ ← removeEdge (some src) (some dst)
  if !(← addDataEdge newOut (some dst)) then return false
  if !ctrlEdgeFlag then return true
  ComputeGraph.movePeersOf addControlEdge .inControl (h.node insertNode).outControlAnchor (h.node (h.owner src)).outControlAnchor

/-- `InsertNodeAfter`. An index is read as one of the signed integers of its width. -/
def insertNodeAfter (originalType : OpId → String) (src : Option AnchorId) (dsts : List (Option AnchorId))
    (insertNode : Option NodeId) (inputIndex outputIndex : BitVec 32) : Cmd Heap Bool := do
  let some src := src | return false
  let some insertNode := insertNode | return false
  let h ← get
  let srcNode := h.owner src
  if (h.node srcNode).ownerGraph ≠ (h.node insertNode).ownerGraph then return false
  if !(← addDataEdge (some src) (Node.getInDataAnchor h insertNode inputIndex.toInt)) then return false
  let ctrlEdgeFlag := !isSwitchType (NodeUtils.getNodeType originalType h srcNode)
  Cmd.eachOk (insertBefore src insertNode (Node.getOutDataAnchor h insertNode outputIndex.toInt) ctrlEdgeFlag) dsts

/-! ## Replacing anchors -/

/-- One round of `ReplaceOutDataAnchors`: the inputs an old output feeds are moved to the new one. An index past the old outputs
throws. -/
def replaceOut (oldOuts : List AnchorId) (newOut : AnchorId) (oldIndex : Int) : Cmd Heap Bool := do
  if oldIndex < 0 then return true
  let some oldOut := oldOuts[oldIndex.toNat]? | Cmd.undef
  return (← replaceOutDataAnchor newOut oldOut).isSome

def replaceOutDataAnchors (newOuts oldOuts : List AnchorId) (outputsMap : List Int) : Cmd Heap Bool := do
  if newOuts.length < outputsMap.length then return false
  Cmd.eachOk (fun e => replaceOut oldOuts e.1 e.2) (newOuts.zip outputsMap)

/-- One round of `ReplaceInDataAnchors`: the source of an old input feeds the new one in its place. An index past the old inputs
throws. -/
def replaceIn (oldIns : List AnchorId) (newIn : AnchorId) (oldIndex : Int) : Cmd Heap Bool := do
  if oldIndex < 0 then return true
  let some oldIn := oldIns[oldIndex.toNat]? | Cmd.undef
  let h ← get
  let some peerOut := InDataAnchor.getPeerOutAnchor h oldIn | return true
  if !(← Anchor.unlink peerOut (some oldIn)) then return false
  OutDataAnchor.linkTo peerOut (some newIn)

def replaceInDataAnchors (newIns oldIns : List AnchorId) (inputsMap : List Int) : Cmd Heap Bool := do
  if newIns.length < inputsMap.length then return false
  Cmd.eachOk (fun e => replaceIn oldIns e.1 e.2) (newIns.zip inputsMap)

def replaceNodeDataAnchors (newNode oldNode : Option NodeId) (inputsMap outputsMap : List Int) : Cmd Heap Bool := do
  let some newNode := newNode | return false
  let some oldNode := oldNode | return false
  let h ← get
  if !(← replaceOutDataAnchors (h.node newNode).outDataAnchors (h.node oldNode).outDataAnchors outputsMap) then return false
  replaceInDataAnchors (h.node newNode).inDataAnchors (h.node oldNode).inDataAnchors inputsMap

/-- `ReplaceControlAnchors`: the new control anchors take the links of the old ones, but for those to anchors they were linked
to. The old ones keep them. -/
def replaceControlAnchors (newNode oldNode : NodeId) : Cmd Heap Bool := do
  let h ← get
  let newIn := (h.node newNode).inControlAnchor
  let peerOuts := (h.peers (h.node oldNode).inControlAnchor).filter (· ∉ h.peers newIn)
  if !(← Cmd.eachOk (fun peerOut => addEdge (some peerOut) (some newIn)) peerOuts) then return false
  let h ← get
  let newOut := (h.node newNode).outControlAnchor
  let peerIns := (h.peers (h.node oldNode).outControlAnchor).filter (· ∉ h.peers newOut)
  Cmd.eachOk (fun peerIn => addEdge (some newOut) (some peerIn)) peerIns

def replaceNodeAnchors (newNode oldNode : Option NodeId) (inputsMap outputsMap : List Int) : Cmd Heap Bool := do
  let some newNode := newNode | return false
  let some oldNode := oldNode | return false
  if !(← replaceNodeDataAnchors (some newNode) (some oldNode) inputsMap outputsMap) then return false
  replaceControlAnchors newNode oldNode

/-! ## Copying and moving edges -/

/-- `CopyInCtrlEdges`: the control sources of a node control another, but for those that do. -/
def copyInCtrlEdges (srcNode dstNode : Option NodeId) : Cmd Heap Bool := do
  let some srcNode := srcNode | return false
  let some dstNode := dstNode | return false
  let h ← get
  let srcCtrlInNodes := Node.getInControlNodes h srcNode
  if srcCtrlInNodes.isEmpty then return true
  let inNodes := srcCtrlInNodes.filter (· ∉ Node.getInControlNodes h dstNode)
  Cmd.eachOk (fun inNode => addControlEdge (some (h.node inNode).outControlAnchor) (some (h.node dstNode).inControlAnchor)) inNodes

def moveInCtrlEdges (srcNode dstNode : Option NodeId) : Cmd Heap Bool := do
  let some srcNode := srcNode | return false
  let some dstNode := dstNode | return false
  if !(← copyInCtrlEdges (some srcNode) (some dstNode)) then return false
  let h ← get
  Anchor.unlinkAll (h.node srcNode).inControlAnchor
  return true

/-- `CopyOutCtrlEdges`: the nodes a node controls are controlled by another, but for those that are. -/
def copyOutCtrlEdges (srcNode dstNode : Option NodeId) : Cmd Heap Bool := do
  let some srcNode := srcNode | return false
  let some dstNode := dstNode | return false
  let h ← get
  let outCtrlNodes := Node.getOutControlNodes h srcNode
  if outCtrlNodes.isEmpty then return true
  let outNodes := outCtrlNodes.filter (· ∉ Node.getOutControlNodes h dstNode)
  Cmd.eachOk (fun node => addControlEdge (some (h.node dstNode).outControlAnchor) (some (h.node node).inControlAnchor)) outNodes

def moveOutCtrlEdges (srcNode dstNode : Option NodeId) : Cmd Heap Bool := do
  let some srcNode := srcNode | return false
  let some dstNode := dstNode | return false
  if !(← copyOutCtrlEdges (some srcNode) (some dstNode)) then return false
  let h ← get
  Anchor.unlinkAll (h.node srcNode).outControlAnchor
  return true

/-- One round of `CopyInDataEdges`. The text of a failure reads the source's name through the pointer whose absence may be the
failure. -/
def copyInDataEdge (dstNode : NodeId) (inDataAnchor : AnchorId) : Cmd Heap Bool := do
  let h ← get
  let peerOut := InDataAnchor.getPeerOutAnchor h inDataAnchor
  if ← addDataEdge peerOut (Node.getInDataAnchor h dstNode (h.anchor inDataAnchor).idx) then return true
  if peerOut.isNone then Cmd.undef
  else return false

def copyInDataEdges (srcNode dstNode : Option NodeId) : Cmd Heap Bool := do
  let some srcNode := srcNode | return false
  let some dstNode := dstNode | return false
  let h ← get
  if (Node.getInDataNodes h srcNode).isEmpty then return true
  Cmd.eachOk (copyInDataEdge dstNode) (h.node srcNode).inDataAnchors

end GraphUtils

end Metadef
