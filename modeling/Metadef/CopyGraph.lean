import Metadef.ModelSerialize
import Metadef.Operator

/-!
# Copying a graph

`GraphUtils::CopyGraph`: the graph of nodes is copied with its subgraphs, then the operators over it, and last their links
are made anew between the copies.
-/

namespace Metadef

namespace OpDesc

def setName (op : OpDesc) (name : String) : OpDesc := { op with opDef := { op.opDef with name } }

/-- `CopyAttrsFrom`: the attributes of the message. -/
def copyAttrsFrom (op holder : OpDesc) : OpDesc :=
  { op with opDef := { op.opDef with
      inputNameKey := holder.opDef.inputNameKey
      inputNameValue := holder.opDef.inputNameValue
      outputNameKey := holder.opDef.outputNameKey
      outputNameValue := holder.opDef.outputNameValue
      optInput := holder.opDef.optInput
      aliasName := holder.opDef.aliasName } }

end OpDesc

namespace Node

/-- The input at an index, the control input at minus one. -/
def getInAnchor (h : Heap) (n : NodeId) (idx : Int) : Option AnchorId :=
  if idx = -1 then some (h.node n).inControlAnchor else getInDataAnchor h n idx

/-- The output at an index, the control output at minus one. -/
def getOutAnchor (h : Heap) (n : NodeId) (idx : Int) : Option AnchorId :=
  if idx = -1 then some (h.node n).outControlAnchor else getOutDataAnchor h n idx

end Node

namespace GraphUtils

/-! ## The graph of nodes -/

/-- The deepest count of subgraphs a copy goes into. -/
def kMaxRecursionDepth : Nat := 10

/-- The objects copied, by the originals: nodes by name and by pointer, and descriptors. -/
structure Copies where
  allNewNodes : OrderedMap String NodeId := []
  nodeOld2New : OrderedMap NodeId NodeId := []
  opDescOld2New : OrderedMap OpId OpId := []

/-- The descriptor of a copy: the name and all attributes are those of the original. -/
def copyDesc (op : OpDesc) : Option OpDesc :=
  (AttrUtils.copyNames op).map fun copy => (copy.copyAttrsFrom op).setName op.getName

/-- Adds a copy of a node. It fails when the node has an output that its descriptor lacks. -/
def copyNode (dst : GraphId) (n : NodeId) (copies : Copies) : Cmd Heap (Option (NodeId × Copies)) := do
  let h ← get
  let some copy := copyDesc (h.desc n) | Cmd.undef
  if copy.outputsDesc.length < (h.node n).outDataAnchors.length then return none
  modify (LinkCall.makeOp copy)
  let some node ← ComputeGraph.addOpNode dst (some h.opCount) | return none
  return some (node, { allNewNodes := copies.allNewNodes.assign (Node.getName h n) node
                       nodeOld2New := copies.nodeOld2New.assign n node
                       opDescOld2New := copies.opDescOld2New.assign (h.node n).op h.opCount })

/-- The loop over the instance names of a node: the subgraph of each is copied by the function given, and registered under
the copy of the node. A name without a subgraph is a null pointer read. The depth counts the subgraphs gone into. -/
def copySubgraphs (copyGraph : GraphId → GraphId → Nat → Cmd Heap (Option (Copies × Nat))) (fuel : Nat) (src dst : GraphId)
    (n node : NodeId) : List String → Nat → Cmd Heap (Option Nat)
  | [], depth => return some depth
  | name :: names, depth => do
    let h ← get
    let some (some srcSubgraph) := ComputeGraph.getSubgraph h fuel src name | Cmd.undef
    let dstSubgraph ← ModelSerializeImp.makeGraph (h.graph srcSubgraph).name
    let some (_, depth) ← copyGraph srcSubgraph dstSubgraph (depth + 1) | return none
    let _ ← ComputeGraph.addSubGraph dst (some dstSubgraph)
    ComputeGraph.edit dstSubgraph fun g => { g with parentNode := some node }
    ComputeGraph.edit dstSubgraph fun g => { g with parentGraph := some dst }
    modify fun h => h.setOp (h.node node).op
      { h.desc node with subgraphNamesToIndex := (h.desc n).subgraphNamesToIndex
                         subgraphInstanceNames := (h.desc n).subgraphInstanceNames }
    copySubgraphs copyGraph fuel src dst n node names depth

/-- The loop over the nodes of a graph. -/
def copyNodes (copyGraph : GraphId → GraphId → Nat → Cmd Heap (Option (Copies × Nat))) (fuel : Nat) (src dst : GraphId) :
    List NodeId → Copies → Nat → Cmd Heap (Option (Copies × Nat))
  | [], copies, depth => return some (copies, depth)
  | n :: nodes, copies, depth => do
    let some (node, copies) ← copyNode dst n copies | return none
    let h ← get
    let some depth ← copySubgraphs copyGraph fuel src dst n node (h.desc n).subgraphInstanceNames.reverse depth | return none
    copyNodes copyGraph fuel src dst nodes copies depth

/-- Links the copy of an output to the copy of a peer of it. -/
def relinkPeer (allNodes : OrderedMap String NodeId) (outAnchor : Heap → Option AnchorId) (peer : AnchorId) : Cmd Heap Bool := do
  let h ← get
  let some newPeerInNode := allNodes.find (Node.getName h (h.owner peer)) | return false
  addEdge (outAnchor h) (Node.getInAnchor h newPeerInNode (h.anchor peer).idx)

/-- `RelinkGraphEdges`: the links of each data output to data inputs, then all links of the control output. -/
def relinkGraphEdges (allNodes : OrderedMap String NodeId) (node : NodeId) : Cmd Heap Bool := do
  let h ← get
  let some newNode := allNodes.find (Node.getName h node) | return false
  if !(← Cmd.eachOk (fun outAnchor =>
      Cmd.eachOk (relinkPeer allNodes fun t => Node.getOutAnchor t newNode (h.anchor outAnchor).idx)
        (OutDataAnchor.getPeerInDataAnchors h outAnchor)) (h.node node).outDataAnchors) then return false
  Cmd.eachOk (relinkPeer allNodes fun t => some (t.node newNode).outControlAnchor) (h.peers (h.node node).outControlAnchor)

/-- Enters the copy of an input. -/
def copyInput (dst : GraphId) (allNewNodes : OrderedMap String NodeId) (node : NodeId) : Cmd Heap Bool := do
  let h ← get
  let some newNode := allNewNodes.find (Node.getName h node) | return false
  let _ ← ComputeGraph.addInputNode dst (some newNode)
  return true

/-- `CopyMembers`: the outputs, inputs and targets, and the members that are copied as they are. -/
def copyMembers (src dst : GraphId) (allNewNodes : OrderedMap String NodeId) : Cmd Heap Bool := do
  let h ← get
  let some outputs := (h.graph src).outputNodesInfo.mapM fun info =>
    (allNewNodes.find (Node.getName h info.1)).map fun node => (node, info.2) | return false
  ComputeGraph.edit dst fun g => { g with outputNodesInfo := outputs }
  if !(← Cmd.eachOk (copyInput dst allNewNodes) (h.graph src).inputNodes) then return false
  let some targets := (h.graph src).targetNodesInfo.mapM fun node => allNewNodes.find (Node.getName h node) | return false
  ComputeGraph.edit dst fun g => { g with targetNodesInfo := targets }
  let h ← get
  ComputeGraph.edit dst fun g =>
    { g with isValidFlag := (h.graph src).isValidFlag
             directNodesSize := (h.graph src).directNodesSize
             inputsOrder := (h.graph src).inputsOrder }
  return true

/-- `CopyComputeGraph`. The depth it is given and returns is counted over all subgraphs gone into, so that the first argument is
large enough when it is the greatest depth and one. The second bounds how many parents are climbed to find a subgraph. -/
def copyComputeGraph : Nat → Nat → GraphId → GraphId → Nat → Cmd Heap (Option (Copies × Nat))
  | 0, _, _, _, _ => Cmd.undef
  | depths + 1, fuel, src, dst, depth => do
    if kMaxRecursionDepth ≤ depth then return none
    let h ← get
    let some (copies, depth) ← copyNodes (copyComputeGraph depths fuel) fuel src dst (h.graph src).nodes {} depth | return none
    if !(← Cmd.eachOk (relinkGraphEdges copies.allNewNodes) (h.graph src).nodes) then return none
    if !(← copyMembers src dst copies.allNewNodes) then return none
    return some (copies, depth)

end GraphUtils

/-! ## The operators -/

/-- A graph of the front end: the graph of nodes, when it has one, and the operators by name. -/
structure GraphImpl where
  name : String := ""
  outputName : String := ""
  computeGraph : Option GraphId := none
  opList : OrderedMap String ImplId := []
  deriving DecidableEq, Repr

namespace OpDescUtils

open GraphUtils

/-- A copy of a descriptor, which is a new one. -/
def copyOp (o : OpId) : Cmd FrontEnd OpId := do
  let s ← get
  let some copy := copyDesc (s.heap.op o) | Cmd.undef
  FrontEnd.onHeap (modify (LinkCall.makeOp copy))
  return s.heap.opCount

/-- The operator of a copied descriptor: the copy the graph of nodes has, or a new one. -/
def copyOperatorOfDesc (copies : Copies) (o : OpId) : Cmd FrontEnd OperatorMembers := do
  match copies.opDescOld2New.find o with
  | some new => return { opDesc := some new }
  | none => return { opDesc := some (← copyOp o) }

/-- The operator of a copied node: the copy the graph of nodes has, or a new one without a graph. -/
def copyOperatorOfNode (copies : Copies) (o : OpId) (node : NodeId) : Cmd FrontEnd OperatorMembers := do
  match copies.nodeOld2New.find node with
  | some new => do
    let s ← get
    return { opDesc := some (s.heap.node new).op, node := some new }
  | none => do
    let op ← copyOp o
    let new ← FrontEnd.onHeap (Node.make op none)
    return { opDesc := some op, node := some new }

/-- The loop of `CopyOperators`. -/
def copyOperators (copies : Copies) :
    List (String × ImplId) → OrderedMap String ImplId → Cmd FrontEnd (Option (OrderedMap String ImplId))
  | [], dstOpList => return some dstOpList
  | (name, srcOp) :: l, dstOpList => do
    let s ← get
    let some o := (s.impl srcOp).opDesc | return none
    let some copy ← (match (s.impl srcOp).node with
      | none => do return some (← copyOperatorOfDesc copies o)
      | some node =>
        if (s.heap.node node).op ≠ o then return none
        else do return some (← copyOperatorOfNode copies o node)) | return none
    let dstOp ← FrontEnd.makeImpl { copy with subgraphNamesToBuilders := (s.impl srcOp).subgraphNamesToBuilders }
    copyOperators copies l (dstOpList.insert name dstOp)

/-- The name of an operator, empty without a descriptor. -/
def implName (s : FrontEnd) (i : ImplId) : String := ((s.impl i).opDesc.map fun o => (s.heap.op o).getName).getD ""

/-- Makes the link of an input anew, from the copy of the name of its source. -/
def copyInputLink (dstOpList : OrderedMap String ImplId) (dstOp : ImplId) (link : String × OpIO) : Cmd FrontEnd Bool := do
  let some input := link.2.owner | return false
  let s ← get
  let some inputOp := dstOpList.find (implName s input) | return false
  let _ ← FrontEnd.onOperators (OperatorImpl.setInputImpl dstOp link.1 (some inputOp))
  return true

/-- Makes a control link anew. -/
def copyControlLink (dstOpList : OrderedMap String ImplId) (dstOp input : ImplId) : Cmd FrontEnd Bool := do
  let s ← get
  let some ctrlInputOp := dstOpList.find (implName s input) | return false
  let _ ← FrontEnd.onOperators (OperatorImpl.addControlInputImp dstOp (some ctrlInputOp))
  return true

/-- The loop of `CopyOperatorLinks`. -/
def copyOperatorLinks (srcOpList dstOpList : OrderedMap String ImplId) : Cmd FrontEnd Bool :=
  Cmd.eachOk (fun e : String × ImplId => do
    let s ← get
    let some dstOp := dstOpList.find e.1 | Cmd.undef
    if !(← Cmd.eachOk (copyInputLink dstOpList dstOp) (s.impl e.2).inputLink) then return false
    Cmd.eachOk (copyControlLink dstOpList dstOp) (s.impl e.2).controlInputLink) srcOpList

end OpDescUtils

namespace GraphUtils

/-- `CopyGraph`: the copy, under the name of the target or else that of the source. -/
def copyGraph (fuel : Nat) (src : GraphImpl) (dstName : String) : Cmd FrontEnd (Option GraphImpl) := do
  let name := if dstName = "" then src.name else dstName
  let newComputeGraph ← FrontEnd.onHeap (ModelSerializeImp.makeGraph name)
  let some srcComputeGraph := src.computeGraph | return none
  let some (copies, _) ← FrontEnd.onHeap
    (copyComputeGraph (kMaxRecursionDepth + 1) fuel srcComputeGraph newComputeGraph 0) | return none
  let some opList ← OpDescUtils.copyOperators copies src.opList [] | return none
  if !(← OpDescUtils.copyOperatorLinks src.opList opList) then return none
  return some { name, outputName := src.outputName, computeGraph := some newComputeGraph, opList }

end GraphUtils

/-!
## Cloning a graph

`GraphUtils::CloneGraph`: the nodes of a graph are copied into a new one under names with a suffix, which the source calls the
prefix, and their links made anew between the copies. The attributes of a descriptor are not modelled, so whether a node has
weights is an argument.
-/

namespace GraphUtils

/-- The nodes made so far by name, and the vectors of input and output nodes the caller passes. -/
structure Clones where
  allNewNodes : OrderedMap String NodeId := []
  inputNodes : List NodeId
  outputNodes : List NodeId

/-- Adds a clone of a node. It fails when the node has an output that its descriptor lacks. A constant without weights is left
out. -/
def cloneNode (hasWeights : NodeId → Bool) (namePrefix : String) (newGraph : GraphId) (n : NodeId) (clones : Clones) :
    Cmd Heap (Option Clones) := do
  let h ← get
  let some opDesc := copyDesc (h.desc n) | return none
  if opDesc.outputsDesc.length < (h.node n).outDataAnchors.length then return none
  if Node.isConst h n && !hasWeights n then return some clones
  let opDesc := opDesc.setName (Node.getName h n ++ namePrefix)
  modify (LinkCall.makeOp opDesc)
  let some node ← ComputeGraph.addOpNode newGraph (some h.opCount) | return none
  return some
    { allNewNodes := clones.allNewNodes.assign opDesc.getName node
      inputNodes := if opDesc.getType = "Data" then clones.inputNodes ++ [node] else clones.inputNodes
      outputNodes := if opDesc.getType = "NetOutput" then clones.outputNodes ++ [node] else clones.outputNodes }

/-- The loop over the nodes. -/
def cloneNodes (hasWeights : NodeId → Bool) (namePrefix : String) (newGraph : GraphId) :
    List NodeId → Clones → Cmd Heap (Option Clones)
  | [], clones => return some clones
  | n :: nodes, clones => do
    let some clones ← cloneNode hasWeights namePrefix newGraph n clones | return none
    cloneNodes hasWeights namePrefix newGraph nodes clones

/-- Links the clone of an output to the clone of a peer of it. -/
def relinkPeerUnder (namePrefix : String) (allNodes : OrderedMap String NodeId) (outAnchor : Heap → Option AnchorId)
    (peer : AnchorId) : Cmd Heap Bool := do
  let h ← get
  let some newPeerInNode := allNodes.find (Node.getName h (h.owner peer) ++ namePrefix) | return false
  addEdge (outAnchor h) (Node.getInAnchor h newPeerInNode (h.anchor peer).idx)

/-- `RelinkGraphEdges`: the links of each data output to data inputs, then all links of the control output. -/
def relinkGraphEdgesUnder (namePrefix : String) (allNodes : OrderedMap String NodeId) (node : NodeId) : Cmd Heap Bool := do
  let h ← get
  let some newNode := allNodes.find (Node.getName h node ++ namePrefix) | return false
  if !(← Cmd.eachOk (fun outAnchor =>
      Cmd.eachOk (relinkPeerUnder namePrefix allNodes fun t => Node.getOutAnchor t newNode (h.anchor outAnchor).idx)
        (OutDataAnchor.getPeerInDataAnchors h outAnchor)) (h.node node).outDataAnchors) then return false
  Cmd.eachOk (relinkPeerUnder namePrefix allNodes fun t => some (t.node newNode).outControlAnchor)
    (h.peers (h.node node).outControlAnchor)

/-- The outputs of the clone: of those of the graph, the ones whose name a clone has. -/
def cloneOutNodesInfo (h : Heap) (graph : GraphId) (allNewNodes : OrderedMap String NodeId) : List (NodeId × Int) :=
  (h.graph graph).outputNodesInfo.filterMap fun info => (allNewNodes.find (Node.getName h info.1)).map fun node => (node, info.2)

/-- `CloneGraph`: the clone and the vectors, its inputs and outputs appended. -/
def cloneGraph (hasWeights : NodeId → Bool) (graph : Option GraphId) (namePrefix : String) (inputNodes outputNodes : List NodeId) :
    Cmd Heap (Option (GraphId × List NodeId × List NodeId)) := do
  let some graph := graph | return none
  let h ← get
  let newGraph ← ModelSerializeImp.makeGraph (h.graph graph).name
  let some clones ← cloneNodes hasWeights namePrefix newGraph (h.graph graph).nodes { inputNodes, outputNodes } | return none
  if !(← Cmd.eachOk (relinkGraphEdgesUnder namePrefix clones.allNewNodes) (h.graph graph).nodes) then return none
  modify fun h => h.setGraph newGraph
    { h.graph newGraph with outputNodesInfo := cloneOutNodesInfo h graph clones.allNewNodes }
  return some (newGraph, clones.inputNodes, clones.outputNodes)

end GraphUtils

end Metadef
