import Metadef.GraphUtils

/-!
# Graphs

The functions of `compute_graph.cc` that change which nodes a graph lists, as its nodes, its inputs and its outputs.
-/

namespace Metadef

namespace Node

variable (h : Heap) (n : NodeId)

/-- The types of constants. -/
def isConst : Bool := getType h n = "Const" || getType h n = "Constant"

end Node

namespace ComputeGraph

/-! ## The node list -/

/-- `PushBackToNodeList`. -/
def pushBackToNodeList (g : ComputeGraph) (node : NodeId) : ComputeGraph :=
  { g with nodes := g.nodes ++ [node], directNodesSize := g.directNodesSize + 1 }

/-- `InsertToNodeList` at a position. -/
def insertToNodeList (g : ComputeGraph) (position : Nat) (node : NodeId) : ComputeGraph :=
  { g with nodes := g.nodes.insertIdx position node, directNodesSize := g.directNodesSize + 1 }

/-- `EraseFromNodeList` at the first place a node has, if it has one. -/
def eraseFromNodeList (g : ComputeGraph) (node : NodeId) : ComputeGraph :=
  if node ∈ g.nodes then { g with nodes := g.nodes.erase node, directNodesSize := g.directNodesSize - 1 } else g

/-- Changes a graph. -/
def edit (this : GraphId) (f : ComputeGraph → ComputeGraph) : Cmd Heap Unit :=
  modify fun h => h.setGraph this (f (h.graph this))

/-- Sets the ids of nodes to their positions. -/
def setIds : List NodeId → Nat → Heap → Heap
  | [], _, h => h
  | n :: l, i, h => setIds l (i + 1) (h.setOp (h.node n).op ((h.desc n).setId i))

/-! ## Adding nodes -/

/-- `AddNode` of a node: it is listed last, whether or not it is listed already. -/
def addNode (this : GraphId) (node : Option NodeId) : Cmd Heap (Option NodeId) := do
  let some node := node | return none
  modify fun h => h.setNode node { h.node node with hostNode := (h.graph this).isValidFlag }
  modify fun h => h.setOp (h.node node).op ((h.desc node).setId (h.graph this).directNodesSize)
  modify fun h => h.setGraph this ((h.graph this).pushBackToNodeList node)
  return some node

/-- `AddNode` of a descriptor: a new node over it is added. -/
def addOpNode (this : GraphId) (op : Option OpId) : Cmd Heap (Option NodeId) := do
  let some op := op | return none
  modify fun h => h.setOp op ((h.op op).setId (h.graph this).directNodesSize)
  let node ← Node.make op (some this)
  addNode this node

/-- `AddNode` of a descriptor with an id. -/
def addOpNodeWithId (this : GraphId) (op : Option OpId) (id : Int) : Cmd Heap (Option NodeId) := do
  let some op := op | return none
  modify fun h => h.setOp op ((h.op op).setId id)
  let node ← Node.make op (some this)
  modify fun h => h.setNode node { h.node node with hostNode := (h.graph this).isValidFlag }
  edit this fun g => g.pushBackToNodeList node
  return some node

/-- `AddNodeFront` of a node: it is listed first, or behind a first node that is data. -/
def addNodeFront (this : GraphId) (node : Option NodeId) : Cmd Heap (Option NodeId) := do
  let some node := node | return none
  modify fun h => h.setNode node { h.node node with hostNode := (h.graph this).isValidFlag }
  modify fun h => h.setOp (h.node node).op ((h.desc node).setId (h.graph this).directNodesSize)
  let h ← get
  let dataFirst := 0 < (h.graph this).directNodesSize && (h.graph this).nodes.head?.any (Node.getType h · = "Data")
  edit this fun g => g.insertToNodeList (if dataFirst then 1 else 0) node
  return some node

/-- `AddNodeFront` of a descriptor. -/
def addOpNodeFront (this : GraphId) (op : Option OpId) : Cmd Heap (Option NodeId) := do
  let some op := op | return none
  modify fun h => h.setOp op ((h.op op).setId (h.graph this).directNodesSize)
  let node ← Node.make op (some this)
  addNodeFront this node

/-- `AddInputNode`: the node becomes an input once more, and is listed if it was not. -/
def addInputNode (this : GraphId) (node : Option NodeId) : Cmd Heap (Option NodeId) := do
  let some node := node | return none
  edit this fun g => { g with inputNodes := g.inputNodes ++ [node] }
  let h ← get
  if node ∈ (h.graph this).nodes then return some node
  let _ ← addNode this node
  return some node

/-- `AddOutputNodeByIndex`: outputs are told apart by the name of the node and the index. -/
def addOutputNodeByIndex (this : GraphId) (node : Option NodeId) (index : Int) : Cmd Heap (Option NodeId) := do
  let some node := node | return none
  let h ← get
  let had := (h.graph this).outputNodesInfo.find? fun item => Node.getName h item.1 = Node.getName h node && item.2 = index
  if had.isNone then edit this fun g => { g with outputNodesInfo := g.outputNodesInfo ++ [(node, index)] }
  let result := (had.map Prod.fst).getD node
  if node ∈ (h.graph this).nodes then return some result
  let _ ← addNode this node
  return some result

/-! ## Isolating a node -/

/-- The loop that moves links of an output to another output, by the overload of `AddEdge` for the new one. -/
def moveEdges (addEdge : Option AnchorId → Option AnchorId → Cmd Heap Bool) (oldAnchor newAnchor : AnchorId) :
    List AnchorId → Cmd Heap Bool :=
  Cmd.eachOk fun next => do
    if !(← GraphUtils.removeEdge (some oldAnchor) (some next)) then return false
    addEdge (some newAnchor) (some next)

/-- Moves the links of an output to its peers of a class. -/
def movePeersOf (addEdge : Option AnchorId → Option AnchorId → Cmd Heap Bool) (k : AnchorKind)
    (newAnchor oldAnchor : AnchorId) : Cmd Heap Bool := do
  let h ← get
  moveEdges addEdge oldAnchor newAnchor (Anchor.getPeersOf h oldAnchor k)

/-- Moves the links of a data output, those to data inputs first. -/
def moveOutData (newAnchor oldAnchor : AnchorId) : Cmd Heap Bool := do
  if !(← movePeersOf GraphUtils.addDataEdge .inData newAnchor oldAnchor) then return false
  movePeersOf GraphUtils.addDataControlEdge .inControl newAnchor oldAnchor

/-- A data source of the node takes over the links of its outputs, those of the control output by its own. -/
def takeOverData (node : NodeId) (preOutDataAnchor : AnchorId) : Cmd Heap Bool := do
  let h ← get
  if !(← Cmd.eachOk (moveOutData preOutDataAnchor) (h.node node).outDataAnchors) then return false
  movePeersOf GraphUtils.addControlEdge .inControl (h.node (h.owner preOutDataAnchor)).outControlAnchor
    (h.node node).outControlAnchor

/-- One round over the data inputs: the source of an input takes over the links of the outputs, unless it is a constant. -/
def isolateInData (node : NodeId) (inDataAnchor : AnchorId) : Cmd Heap Bool := do
  let h ← get
  let some preOutDataAnchor := InDataAnchor.getPeerOutAnchor h inDataAnchor | return true
  if !(← GraphUtils.removeEdge (some preOutDataAnchor) (some inDataAnchor)) then return false
  if Node.isConst h (h.owner preOutDataAnchor) then return true
  takeOverData node preOutDataAnchor

/-- A control source of the node takes over the control links of its outputs. -/
def takeOverControl (node : NodeId) (preOutCtrlAnchor : AnchorId) : Cmd Heap Bool := do
  let h ← get
  if !(← Cmd.eachOk (movePeersOf GraphUtils.addControlEdge .inControl preOutCtrlAnchor) (h.node node).outDataAnchors) then
    return false
  movePeersOf GraphUtils.addControlEdge .inControl preOutCtrlAnchor (h.node node).outControlAnchor

/-- One round over the control sources. -/
def isolateInControl (node : NodeId) (preOutCtrlAnchor : AnchorId) : Cmd Heap Bool := do
  let h ← get
  if !(← GraphUtils.removeEdge (some preOutCtrlAnchor) (some (h.node node).inControlAnchor)) then return false
  takeOverControl node preOutCtrlAnchor

/-- A data output comes to control nodes. -/
def controlNodes (outPeerDataAnchor : AnchorId) (nodes : List NodeId) : Cmd Heap Bool := do
  let h ← get
  Cmd.eachOk (fun next => GraphUtils.addDataControlEdge (some outPeerDataAnchor) (some (h.node next).inControlAnchor)) nodes

/-- One round over the data sources of the control input: the source controls the nodes that came next. -/
def isolateOutPeerData (node : NodeId) (nextNodes : List NodeId) (outPeerDataAnchor : AnchorId) : Cmd Heap Bool := do
  let h ← get
  if !(← GraphUtils.removeEdge (some outPeerDataAnchor) (some (h.node node).inControlAnchor)) then return false
  controlNodes outPeerDataAnchor nextNodes

/-- Removes the links of an output to its peers of a class. -/
def removePeersOf (k : AnchorKind) (outAnchor : AnchorId) : Cmd Heap Bool := do
  let h ← get
  Cmd.eachOk (fun next => GraphUtils.removeEdge (some outAnchor) (some next)) (Anchor.getPeersOf h outAnchor k)

/-- Removes the links of a data output. -/
def removeOutData (outAnchor : AnchorId) : Cmd Heap Bool := do
  if !(← removePeersOf .inData outAnchor) then return false
  removePeersOf .inControl outAnchor

def removeExtraOutEdge (node : NodeId) : Cmd Heap Bool := do
  let h ← get
  if !(← Cmd.eachOk removeOutData (h.node node).outDataAnchors) then return false
  removePeersOf .inControl (h.node node).outControlAnchor

/-- `IsolateNode` of a graph. -/
def isolateNode (node : NodeId) : Cmd Heap Bool := do
  let h ← get
  let nextNodes := Node.getOutAllNodes h node
  if !(← Cmd.eachOk (isolateInData node) (h.node node).inDataAnchors) then return false
  let h ← get
  if !(← Cmd.eachOk (isolateInControl node) (InControlAnchor.getPeerOutControlAnchors h (h.node node).inControlAnchor)) then
    return false
  let h ← get
  if !(← Cmd.eachOk (isolateOutPeerData node nextNodes)
      (InControlAnchor.getPeerOutDataAnchors h (h.node node).inControlAnchor)) then
    return false
  removeExtraOutEdge node

/-! ## Removing nodes -/

/-- One round of `RemoveConstInput`: a constant that feeds an input is unlinked from it, and no longer listed if it is left
without out nodes. -/
def removeConstInputAt (this : GraphId) (inAnchor : AnchorId) : Cmd Heap Bool := do
  let h ← get
  let some outAnchor := InDataAnchor.getPeerOutAnchor h inAnchor | return true
  if !Node.isConst h (h.owner outAnchor) then return true
  if !(← GraphUtils.removeEdge (some outAnchor) (some inAnchor)) then return false
  modify fun t =>
    if (Node.getOutNodes t (h.owner outAnchor)).isEmpty then
      t.setGraph this ((t.graph this).eraseFromNodeList (h.owner outAnchor))
    else t
  return true

def removeConstInput (this : GraphId) (node : NodeId) : Cmd Heap Bool := do
  let h ← get
  Cmd.eachOk (removeConstInputAt this) (h.node node).inDataAnchors

/-- `RemoveInputNode`: the first place the node has among the inputs. -/
def removeInputNode (this : GraphId) (node : Option NodeId) : Cmd Heap Bool := do
  let some node := node | return false
  let h ← get
  if node ∉ (h.graph this).inputNodes then return false
  edit this fun g => { g with inputNodes := g.inputNodes.erase node }
  return true

/-- `RemoveOutputNode`: all outputs of nodes of the name of the node. -/
def removeOutputNode (this : GraphId) (node : Option NodeId) : Cmd Heap Bool := do
  let some node := node | return false
  let h ← get
  edit this fun g =>
    { g with outputNodesInfo := g.outputNodesInfo.filter fun item => Node.getName h node ≠ Node.getName h item.1 }
  return (h.graph this).outputNodesInfo.any fun item => Node.getName h node = Node.getName h item.1

def removeNode (this : GraphId) (node : Option NodeId) : Cmd Heap Bool := do
  let some node := node | return false
  let _ ← removeConstInput this node
  let _ ← removeInputNode this node
  let _ ← removeOutputNode this node
  if !(← isolateNode node) then return false
  let h ← get
  if node ∉ (h.graph this).nodes then return false
  edit this fun g => g.eraseFromNodeList node
  return true

/-! ## Ordering event nodes -/

/-- Moves a node next to another, by as many places behind it. Without the other the `at` of the source throws; a place
behind the end is undefined. -/
def moveEventNode (this : GraphId) (node : NodeId) (other : Option NodeId) (behind : Nat) : Cmd Heap Unit := do
  let some other := other | Cmd.undef
  let h ← get
  let nodeList := (h.graph this).nodes.erase node
  if nodeList.length < nodeList.idxOf other + behind then Cmd.undef
  else edit this fun g => { g with nodes := nodeList.insertIdx (nodeList.idxOf other + behind) node }

/-- The loop of `ReorderEventNodes`: a node that receives goes before the first node it controls, one that sends behind the
first node that controls it. -/
def reorderEventNodes (this : GraphId) : List NodeId → Cmd Heap Unit
  | [] => pure ()
  | node :: l => do
    let h ← get
    if Node.getType h node = "Recv" then moveEventNode this node (Node.getOutControlNodes h node).head? 0
    if Node.getType h node = "Send" then moveEventNode this node (Node.getInControlNodes h node).head? 1
    reorderEventNodes this l

/-- `InsertEventNodes`: the nodes are reordered, numbered and listed anew. -/
def insertEventNodes (this : GraphId) : Cmd Heap Bool := do
  let h ← get
  reorderEventNodes this (h.graph this).nodes
  modify fun h => setIds (h.graph this).nodes 0 h
  edit this fun g => { g with directNodesSize := g.nodes.length }
  return true

end ComputeGraph

/-!
## Equality of graphs

The comparisons of `op_desc.cc`, `node.cc` and `compute_graph.cc`, over the data the model holds. Nodes are found by name in the
other graph, and links are compared by the names of the nodes they lead to.
-/

namespace OpDesc

variable (op r : OpDesc)

def opDescAttrsAreEqual : Bool :=
  op.opDef.name = r.opDef.name && op.opDef.type = r.opDef.type && op.opDef.input = r.opDef.input &&
    op.opDef.isInputConst = r.opDef.isInputConst

def opDescMembersAreEqual : Bool :=
  op.inputNameIdx = r.inputNameIdx && op.outputNameIdx = r.outputNameIdx && op.optionalInputNames = r.optionalInputNames

def opDescGenTensorDescsAreEqual : Bool := op.inputsDesc = r.inputsDesc && op.outputsDesc = r.outputsDesc

/-- `operator==`. -/
def isEqual : Bool := op.opDescAttrsAreEqual r && op.opDescMembersAreEqual r && op.opDescGenTensorDescsAreEqual r

end OpDesc

namespace Node

variable (h : Heap)

/-- The data inputs, and the control input when it has a source. -/
def getAllInAnchors (n : NodeId) : List AnchorId :=
  let control := (h.node n).inControlAnchor
  (h.node n).inDataAnchors ++
    if 0 < (InControlAnchor.getPeerOutControlAnchors h control).length ||
      0 < (InControlAnchor.getPeerOutDataAnchors h control).length then [control] else []

/-- The data outputs, and the control output when it has a target. -/
def getAllOutAnchors (n : NodeId) : List AnchorId :=
  let control := (h.node n).outControlAnchor
  (h.node n).outDataAnchors ++
    if 0 < (OutControlAnchor.getPeerInControlAnchors h control).length ||
      0 < (OutControlAnchor.getPeerInDataAnchors h control).length then [control] else []

def nodeMembersAreEqual (n r : NodeId) : Bool := (h.desc n).isEqual (h.desc r)

/-- Two anchors have as many peers, of nodes of the same names in the same order. -/
def nodeAnchorIsEqual (leftAnchor rightAnchor : AnchorId) : Bool :=
  (h.peers leftAnchor).length = (h.peers rightAnchor).length &&
    ((h.peers leftAnchor).zip (h.peers rightAnchor)).all fun p => getName h (h.owner p.1) = getName h (h.owner p.2)

def nodeInConnectsAreEqual (n r : NodeId) : Bool :=
  (h.node n).inDataAnchors.length = (h.node r).inDataAnchors.length &&
    (getAllInAnchors h n).length - (h.node n).inDataAnchors.length =
      (getAllInAnchors h r).length - (h.node r).inDataAnchors.length &&
    ((getAllInAnchors h n).zip (getAllInAnchors h r)).all fun p => nodeAnchorIsEqual h p.1 p.2

def nodeOutConnectsAreEqual (n r : NodeId) : Bool :=
  (h.node n).outDataAnchors.length = (h.node r).outDataAnchors.length &&
    (getAllOutAnchors h n).length - (h.node n).outDataAnchors.length =
      (getAllOutAnchors h r).length - (h.node r).outDataAnchors.length &&
    ((getAllOutAnchors h n).zip (getAllOutAnchors h r)).all fun p => nodeAnchorIsEqual h p.1 p.2

/-- `operator==`. -/
def isEqual (n r : NodeId) : Bool :=
  nodeMembersAreEqual h n r && nodeInConnectsAreEqual h n r && nodeOutConnectsAreEqual h n r

end Node

namespace ComputeGraph

variable (h : Heap)

/-- `FindNode`: the first node of a name, or that goes by it. -/
def findNode (g : GraphId) (name : String) : Option NodeId :=
  (h.graph g).nodes.find? fun n => Node.getName h n = name || (h.desc n).opDef.aliasName.contains name

def vectorInputNodePtrIsEqual (leftNodes rightNodes : List NodeId) : Bool :=
  leftNodes.length = rightNodes.length &&
    (leftNodes.zip rightNodes).all fun p => Node.getName h p.1 = Node.getName h p.2

/-- `GraphMembersAreEqual`. The outputs are compared as pointers. -/
def graphMembersAreEqual (g r : GraphId) : Bool :=
  (h.graph g).subGraph.length = (h.graph r).subGraph.length &&
    (h.graph g).directNodesSize = (h.graph r).directNodesSize &&
    vectorInputNodePtrIsEqual h (h.graph g).inputNodes (h.graph r).inputNodes &&
    (h.graph g).name = (h.graph r).name && (h.graph g).isValidFlag = (h.graph r).isValidFlag &&
    (h.graph g).inputsOrder = (h.graph r).inputsOrder && (h.graph g).outputNodesInfo = (h.graph r).outputNodesInfo

/-- The loop over the nodes: each is equal to the node of its name in the other graph. -/
def nodesAreEqual (g r : GraphId) : Bool :=
  (h.graph g).nodes.all fun leftNode =>
    match findNode h r (Node.getName h leftNode) with
    | none => false
    | some rightNode => Node.isEqual h rightNode leftNode

/-- The loop over the subgraphs, which stops at the first two that differ. -/
def eachEqual (equal : GraphId → GraphId → Option Bool) : List (GraphId × GraphId) → Option Bool
  | [] => some true
  | p :: l =>
    match equal p.1 p.2 with
    | some true => eachEqual equal l
    | r => r

/-- `operator==`. The first argument bounds how deep subgraphs are nested. -/
def isEqual : Nat → GraphId → GraphId → Option Bool
  | 0, _, _ => none
  | fuel + 1, g, r =>
    if !graphMembersAreEqual h g r then some false
    else if !nodesAreEqual h g r then some false
    else eachEqual (isEqual fuel) ((h.graph g).subGraph.zip (h.graph r).subGraph)

end ComputeGraph

end Metadef
