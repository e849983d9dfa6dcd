import Metadef.TopoSort

/-!
# Runs of linking calls

The calls that make nodes, link and unlink anchors, and add and drop anchors of nodes. A run starts from the heap without
objects and makes any sequence of calls whose arguments are of the classes the functions are declared for.
-/

namespace Metadef

/-- A call. A pointer that may be null is an option. -/
inductive LinkCall where
  /-- A caller makes a descriptor, and a node over one. -/
  | newOp (op : OpDesc)
  | newNode (op : OpId)
  | inDataLinkFrom (this : AnchorId) (src : Option AnchorId)
  | inControlLinkFrom (this : AnchorId) (src : Option AnchorId)
  | outDataLinkTo (this : AnchorId) (dest : Option AnchorId)
  | outDataLinkToControl (this : AnchorId) (dest : Option AnchorId)
  | outControlLinkTo (this : AnchorId) (dest : Option AnchorId)
  | outControlLinkToData (this : AnchorId) (dest : Option AnchorId)
  | unlink (this : AnchorId) (peer : Option AnchorId)
  | unlinkAll (this : AnchorId)
  | replacePeer (this : AnchorId) (oldPeer firstPeer secondPeer : Option AnchorId)
  | addDataEdge (src dst : Option AnchorId)
  | addDataEdgeWithFormat (src : Option AnchorId) (srcFormat : Format) (dst : Option AnchorId) (dstFormat : Format)
  | addControlEdge (src dst : Option AnchorId)
  | addDataControlEdge (src dst : Option AnchorId)
  | addEdge (src dst : Option AnchorId)
  | removeEdge (src dst : Option AnchorId)
  | insertNodeBetween (src dst : Option AnchorId) (node : Option NodeId)
  | addLinkFrom (this : NodeId) (inputNode : Option NodeId)
  | addLinkFromAt (this : NodeId) (index : Nat) (inputNode : Option NodeId)
  | addLinkFromNamed (this : NodeId) (name : String) (inputNode : Option NodeId)
  | clearInDataAnchor (node : Option NodeId) (inDataAnchor : Option AnchorId)
  | appendInputAnchor (node : Option NodeId) (num : Nat)
  | removeInputAnchor (node : Option NodeId) (num : Nat)
  | appendOutputAnchor (node : Option NodeId) (num : Nat)
  | removeOutputAnchor (node : Option NodeId) (num : Nat)
  deriving DecidableEq, Repr

namespace LinkCall

/-! ## Arguments -/

/-- A pointer to an anchor that was made. -/
def isAnchor (h : Heap) (a : Option AnchorId) : Bool := a.all (· < h.anchorCount)

/-- A pointer to an anchor of a class. -/
def isAnchorOf (h : Heap) (k : AnchorKind) (a : Option AnchorId) : Bool :=
  a.all fun a => a < h.anchorCount && h.kind a = k

/-- A pointer to a node that was made. -/
def isNode (h : Heap) (n : Option NodeId) : Bool := n.all (· < h.nodeCount)

/-- The arguments are of the classes the function is declared for. -/
def wellTyped (h : Heap) : LinkCall → Bool
  | newOp _ => true
  | newNode op => op < h.opCount
  | inDataLinkFrom this src => isAnchorOf h .inData this && isAnchorOf h .outData src
  | inControlLinkFrom this src => isAnchorOf h .inControl this && isAnchorOf h .outControl src
  | outDataLinkTo this dest => isAnchorOf h .outData this && isAnchorOf h .inData dest
  | outDataLinkToControl this dest => isAnchorOf h .outData this && isAnchorOf h .inControl dest
  | outControlLinkTo this dest => isAnchorOf h .outControl this && isAnchorOf h .inControl dest
  | outControlLinkToData this dest => isAnchorOf h .outControl this && isAnchorOf h .inData dest
  | unlink this peer => isAnchor h this && isAnchor h peer
  | unlinkAll this => isAnchor h this
  | replacePeer this oldPeer firstPeer secondPeer =>
    isAnchor h this && isAnchor h oldPeer && isAnchor h firstPeer && isAnchor h secondPeer
  | addDataEdge src dst => isAnchorOf h .outData src && isAnchorOf h .inData dst
  | addDataEdgeWithFormat src _ dst _ => isAnchorOf h .outData src && isAnchorOf h .inData dst
  | addControlEdge src dst => isAnchorOf h .outControl src && isAnchorOf h .inControl dst
  | addDataControlEdge src dst => isAnchorOf h .outData src && isAnchorOf h .inControl dst
  | addEdge src dst => isAnchor h src && isAnchor h dst
  | removeEdge src dst => isAnchor h src && isAnchor h dst
  | insertNodeBetween src dst node => isAnchorOf h .outData src && isAnchorOf h .inData dst && isNode h node
  | addLinkFrom this inputNode => isNode h this && isNode h inputNode
  | addLinkFromAt this _ inputNode => isNode h this && isNode h inputNode
  | addLinkFromNamed this _ inputNode => isNode h this && isNode h inputNode
  | clearInDataAnchor node inDataAnchor => isNode h node && isAnchorOf h .inData inDataAnchor
  | appendInputAnchor node _ => isNode h node
  | removeInputAnchor node _ => isNode h node
  | appendOutputAnchor node _ => isNode h node
  | removeOutputAnchor node _ => isNode h node

/-! ## Running -/

/-- Enters a new descriptor. -/
def makeOp (op : OpDesc) (h : Heap) : Heap := { h with opCount := h.opCount + 1 }.setOp h.opCount op

/-- The function a call is of, applied to its arguments. -/
def run : LinkCall → Cmd Heap Bool
  | newOp op => do modify (makeOp op); return true
  | newNode op => do let _ ← Node.make op none; return true
  | inDataLinkFrom this src => InDataAnchor.linkFrom this src
  | inControlLinkFrom this src => InControlAnchor.linkFrom this src
  | outDataLinkTo this dest => OutDataAnchor.linkTo this dest
  | outDataLinkToControl this dest => OutDataAnchor.linkToControl this dest
  | outControlLinkTo this dest => OutControlAnchor.linkTo this dest
  | outControlLinkToData this dest => OutControlAnchor.linkToData this dest
  | unlink this peer => Anchor.unlink this peer
  | unlinkAll this => do Anchor.unlinkAll this; return true
  | replacePeer this oldPeer firstPeer secondPeer => Anchor.replacePeer this oldPeer firstPeer secondPeer
  | addDataEdge src dst => GraphUtils.addDataEdge src dst
  | addDataEdgeWithFormat src srcFormat dst dstFormat => GraphUtils.addDataEdgeWithFormat src srcFormat dst dstFormat
  | addControlEdge src dst => GraphUtils.addControlEdge src dst
  | addDataControlEdge src dst => GraphUtils.addDataControlEdge src dst
  | addEdge src dst => GraphUtils.addEdge src dst
  | removeEdge src dst => GraphUtils.removeEdge src dst
  | insertNodeBetween src dst node => GraphUtils.insertNodeBetweenDataAnchors src dst node
  | addLinkFrom this inputNode => Node.addLinkFrom this inputNode
  | addLinkFromAt this index inputNode => Node.addLinkFromAt this index inputNode
  | addLinkFromNamed this name inputNode => Node.addLinkFromNamed this name inputNode
  | clearInDataAnchor node inDataAnchor => NodeUtils.clearInDataAnchor node inDataAnchor
  | appendInputAnchor node num => NodeUtils.appendInputAnchor node num
  | removeInputAnchor node num => NodeUtils.removeInputAnchor node num
  | appendOutputAnchor node num => NodeUtils.appendOutputAnchor node num
  | removeOutputAnchor node num => NodeUtils.removeOutputAnchor node num

/-- The heap after a call. A call with an argument of another class is none the language admits. -/
def step (h : Heap) (c : LinkCall) : Option Heap := if c.wellTyped h then (c.run h).map Prod.snd else none

/-- The heap a run of calls ends in. -/
def runAll (calls : List LinkCall) : Option Heap := Run.exec step calls Heap.empty

end LinkCall

/-!
## Runs of graph calls

The calls that change which nodes a graph lists, sort them, and add and remove edges between them. A run starts from a graph
without nodes, and the nodes a caller adds are made by the run.
-/

/-- The ends of the edge a call adds or removes. -/
def LinkCall.edgeEnds : LinkCall → Option (Option AnchorId × Option AnchorId)
  | addDataEdge src dst => some (src, dst)
  | addDataEdgeWithFormat src _ dst _ => some (src, dst)
  | addControlEdge src dst => some (src, dst)
  | addDataControlEdge src dst => some (src, dst)
  | addEdge src dst => some (src, dst)
  | removeEdge src dst => some (src, dst)
  | _ => none

/-- A call on a graph. A pointer that may be null is an option. -/
inductive GraphCall where
  /-- A caller makes a descriptor, and a node over one that no graph lists yet. -/
  | newOp (op : OpDesc)
  | newNode (op : OpId)
  | addNode (node : Option NodeId)
  | addOpNode (op : Option OpId)
  | addOpNodeWithId (op : Option OpId) (id : Int)
  | addNodeFront (node : Option NodeId)
  | addOpNodeFront (op : Option OpId)
  | addInputNode (node : Option NodeId)
  | addOutputNodeByIndex (node : Option NodeId) (index : Int)
  | removeNode (node : Option NodeId)
  | removeInputNode (node : Option NodeId)
  | removeOutputNode (node : Option NodeId)
  | insertEventNodes
  | topologicalSorting (fuel : Nat) (runMode : Option Int) (dfsReverse : Bool)
  | topologicalSortingBy (comp : NodeId → NodeId → Bool)
  /-- An edge is added or removed by one of the overloads of `AddEdge` and `RemoveEdge`. -/
  | edge (call : LinkCall)

namespace GraphCall

variable (h : Heap) (g : GraphId)

/-- A pointer to a descriptor that was made. -/
def isOp (op : Option OpId) : Bool := op.all (· < h.opCount)

/-- A pointer to an anchor of a node the graph lists. -/
def isListedAnchor (a : Option AnchorId) : Bool :=
  a.all fun a => (h.graph g).nodes.any fun n => a ∈ [AnchorKind.inData, .outData, .inControl, .outControl].flatMap (h.anchorsOf n)

/-- The arguments are of the classes the function is declared for, and edges are between nodes the graph lists. -/
def wellTyped : GraphCall → Bool
  | newOp _ => true
  | newNode op => op < h.opCount
  | addNode node => LinkCall.isNode h node
  | addOpNode op => isOp h op
  | addOpNodeWithId op _ => isOp h op
  | addNodeFront node => LinkCall.isNode h node
  | addOpNodeFront op => isOp h op
  | addInputNode node => LinkCall.isNode h node
  | addOutputNodeByIndex node _ => LinkCall.isNode h node
  | removeNode node => LinkCall.isNode h node
  | removeInputNode node => LinkCall.isNode h node
  | removeOutputNode node => LinkCall.isNode h node
  | insertEventNodes => true
  | topologicalSorting _ _ _ => true
  | topologicalSortingBy _ => true
  | edge call => call.wellTyped h && call.edgeEnds.any fun e => isListedAnchor h g e.1 && isListedAnchor h g e.2

/-- The function a call is of, applied to the graph and its arguments. Only what it does to the heap counts. -/
def run : GraphCall → Cmd Heap Unit
  | newOp op => modify (LinkCall.makeOp op)
  | newNode op => do let _ ← Node.make op none
  | addNode node => do let _ ← ComputeGraph.addNode g node
  | addOpNode op => do let _ ← ComputeGraph.addOpNode g op
  | addOpNodeWithId op id => do let _ ← ComputeGraph.addOpNodeWithId g op id
  | addNodeFront node => do let _ ← ComputeGraph.addNodeFront g node
  | addOpNodeFront op => do let _ ← ComputeGraph.addOpNodeFront g op
  | addInputNode node => do let _ ← ComputeGraph.addInputNode g node
  | addOutputNodeByIndex node index => do let _ ← ComputeGraph.addOutputNodeByIndex g node index
  | removeNode node => do let _ ← ComputeGraph.removeNode g node
  | removeInputNode node => do let _ ← ComputeGraph.removeInputNode g node
  | removeOutputNode node => do let _ ← ComputeGraph.removeOutputNode g node
  | insertEventNodes => do let _ ← ComputeGraph.insertEventNodes g
  | topologicalSorting fuel runMode dfsReverse => do let _ ← ComputeGraph.topologicalSortingGraph fuel runMode dfsReverse g
  | topologicalSortingBy comp => ComputeGraph.topologicalSortingBy comp g
  | edge call => do let _ ← call.run

/-- The heap after a call. A call with an argument of another class is none the language admits. -/
def step (h : Heap) (c : GraphCall) : Option Heap := if c.wellTyped h g then (c.run g h).map Prod.snd else none

/-- The heap a run of calls on a graph ends in. -/
def runAll (calls : List GraphCall) : Option Heap := Run.exec (step g) calls Heap.empty

end GraphCall

end Metadef
