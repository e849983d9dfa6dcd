import Metadef.Subgraphs

/-!
# Reference relations

The relations of `ref_relation.cc`: which inputs and outputs of a node that runs subgraphs stand for which inputs and outputs
inside them. They are built node by node, class by class, and kept in a table from each place to the class it is in.
-/

namespace Metadef

/-! ## Data -/

inductive InOutFlag where
  | nodeIn | nodeOut
  deriving DecidableEq, Repr

/-- The number of a flag. -/
def InOutFlag.toNat : InOutFlag → Nat
  | .nodeIn => 0
  | .nodeOut => 1

/-- An input or an output of a node. -/
structure RefCell where
  nodeName : String
  node : NodeId
  inOut : InOutFlag
  inOutIdx : Int
  deriving DecidableEq, Repr

/-- The attribute `_parent_node_index` of a descriptor, and of one of its input descriptors. -/
structure RefIndexes where
  ofNode : OpId → Option Int := fun _ => none
  ofInput : OpId → Nat → Option Int := fun _ _ => none

/-- The relations: the classes of each node, and the class by the key of a place. -/
structure RefRelations where
  lookUpTable : OrderedMap String (List RefCell) := []
  values : List (List (List RefCell)) := []
  deriving DecidableEq, Repr

/-- Why building ends early. -/
inductive RefFault where
  /-- An error is returned. -/
  | failed
  /-- A vector is accessed outside its bounds. -/
  | outOfRange
  /-- The search for a graph above, or the walk over the subgraphs, does not end. -/
  | unending
  deriving DecidableEq, Repr

/-- The graphs and the attributes each holds. -/
structure RefGraphs (α : Type) where
  heap : Heap
  attrs : GraphId → α

/-- Assigns one graph to another, members and attributes. -/
def RefGraphs.assign {α : Type} (s : RefGraphs α) (dst src : GraphId) : RefGraphs α :=
  { heap := s.heap.setGraph dst (s.heap.graph src), attrs := Function.update s.attrs dst (s.attrs src) }

/-- The input descriptor at an index, null when it is invalid or there is none. -/
def OpDesc.mutableInputDesc (op : OpDesc) (index : Nat) : Option GeTensorDesc := op.inputsDesc[index]?.filter GeTensorDesc.isValid

namespace RefRelations

def kMaxElementNum : Nat := 100

/-! ## Looking up -/

/-- The key of a place: what is printed of it, with the address of its node. -/
def keyOf (address : NodeId → Nat) (c : RefCell) : String :=
  c.nodeName ++ toString c.inOut.toNat ++ toString c.inOutIdx ++ toString (address c.node)

/-- `LookUpRefRelations`: the places of the class, none when the key has no class. -/
def lookUpRefRelations (address : NodeId → Nat) (r : RefRelations) (key : RefCell) : List RefCell :=
  (r.lookUpTable.find (keyOf address key)).getD []

/-- `Clear`. -/
def clear (_ : RefRelations) : RefRelations := {}

/-- `BuildLookUpTables`: each place gets the class it is met in, the last one when there are several. -/
def buildLookUpTables (address : NodeId → Nat) (r : RefRelations) : RefRelations :=
  { r with lookUpTable := r.values.foldl (fun t val =>
      val.foldl (fun t ele => ele.foldl (fun t c => t.assign (keyOf address c) ele) t) t) r.lookUpTable }

section Classes

variable (h : Heap) (x : RefIndexes)

/-! ## The nodes of the subgraphs -/

/-- `GetDataAndNetoutputOfSubGraph`, from a subgraph on. The condition of a loop has no outputs that matter. -/
def getDataAndNetoutputOfSubGraph (fuel : Nat) (rootGraph : GraphId) (nodeType : String) :
    List String → Nat → List NodeId × List NodeId → Except RefFault (List NodeId × List NodeId)
  | [], _, found => .ok found
  | name :: names, subGraphIdx, found =>
    match ComputeGraph.getSubgraph h fuel rootGraph name with
    | none => .error .unending
    | some none => getDataAndNetoutputOfSubGraph fuel rootGraph nodeType names subGraphIdx found
    | some (some subGraph) =>
      let nodes := (h.graph subGraph).nodes
      let netoutputs := if nodeType = "While" ∧ subGraphIdx = 0 then [] else nodes.filter (Node.getType h · = "NetOutput")
      getDataAndNetoutputOfSubGraph fuel rootGraph nodeType names (subGraphIdx + 1)
        (found.1 ++ nodes.filter (Node.getType h · = "Data"), found.2 ++ netoutputs)

/-- Puts an item into the class of an index. An index past the end is refused, a negative one is not. -/
def classify {α : Type} (classes : List (List α)) (i : Int) (a : α) : Except RefFault (List (List α)) :=
  if (classes.length : Int) ≤ i then .error .failed
  else if i < 0 then .error .outOfRange
  else .ok (classes.modify i.toNat (· ++ [a]))

/-- `ProcessSubgraphDataNodes`: the nodes are taken from the back. -/
def processSubgraphDataNodes (dataNodes : List NodeId) (classedDataNodes : List (List NodeId)) :
    Except RefFault (List (List NodeId)) :=
  if dataNodes.any fun data => (x.ofNode (h.node data).op).isNone then .error .failed
  else dataNodes.reverse.foldlM (fun classes data => classify classes ((x.ofNode (h.node data).op).getD 0) data) classedDataNodes

/-- One input of `ProcessSubgraphNetoutput`. -/
def classifyInput (subNetoutputNode : NodeId) (classes : List (List (NodeId × Nat))) (inDataAnchor : AnchorId) :
    Except RefFault (List (List (NodeId × Nat))) :=
  let idx := (h.anchor inDataAnchor).idx.toNat
  match (h.desc subNetoutputNode).mutableInputDesc idx with
  | none => .error .failed
  | some _ =>
    match x.ofInput (h.node subNetoutputNode).op idx with
    | none => .ok classes
    | some refO => classify classes refO (subNetoutputNode, idx)

/-- `ProcessSubgraphNetoutput`. -/
def processSubgraphNetoutput (netoutputNodes : List NodeId) (classedNetoutputNodes : List (List (NodeId × Nat))) :
    Except RefFault (List (List (NodeId × Nat))) :=
  netoutputNodes.foldlM (fun classes node => (h.node node).inDataAnchors.foldlM (classifyInput h x node) classes)
    classedNetoutputNodes

/-! ## The classes of a node -/

/-- A place of a node. -/
def cell (node : NodeId) (inOut : InOutFlag) (idx : Nat) : RefCell :=
    { nodeName := Node.getName h node, node, inOut, inOutIdx := idx }

/-- The places of data nodes: each with its input and its output. -/
def dataCells (nodes : List NodeId) : List RefCell := nodes.flatMap fun data => [cell h data .nodeIn 0, cell h data .nodeOut 0]

/-- The places of the inputs of outputs of a subgraph. -/
def netoutputCells (nodes : List (NodeId × Nat)) : List RefCell := nodes.map fun ele => cell h ele.1 .nodeIn ele.2

/-- `BuildRefRelationsForBranch`: a class for each index of the inputs, and one for each of the outputs. -/
def buildRefRelationsForBranch (rootNode : NodeId) (classedDataNodes : List (List NodeId))
    (classedNetoutputNodes : List (List (NodeId × Nat))) : List (List RefCell) :=
  classedDataNodes.zipIdx.map (fun e => cell h rootNode .nodeIn e.2 :: dataCells h e.1) ++
    classedNetoutputNodes.zipIdx.map (fun e => cell h rootNode .nodeOut e.2 :: netoutputCells h e.1)

/-- The class of one index of a loop. -/
def whileClass (rootNode : NodeId) (i : Nat) (data : List NodeId) (nets : List (NodeId × Nat)) : List RefCell :=
  [cell h rootNode .nodeIn i, cell h rootNode .nodeOut i] ++ dataCells h data ++ netoutputCells h nets

/-- Joins the classes of two indexes, each into the other. A class joined with itself is doubled. -/
def joinClasses (nodeRefs : List (List RefCell)) (refD refN : Int) : Except RefFault (List (List RefCell)) :=
  if refD < 0 ∨ (nodeRefs.length : Int) ≤ refD ∨ refN < 0 ∨ (nodeRefs.length : Int) ≤ refN then .error .outOfRange
  else
    let d := refD.toNat
    let n := refN.toNat
    let nodeRefs := nodeRefs.set d (nodeRefs.getD d [] ++ nodeRefs.getD n [])
    .ok (nodeRefs.set n (nodeRefs.getD n [] ++ nodeRefs.getD d []))

/-- The two indexes an input of the output of a loop ties together, when data feeds it: that of the data and its own. -/
def tiedIndexes (netoutput : NodeId) (inAnchor : AnchorId) : Option (Int × Int) :=
  match InDataAnchor.getPeerOutAnchor h inAnchor with
  | none => none
  | some peerOutDataAnchor =>
    let peerOutDataNode := h.owner peerOutDataAnchor
    if Node.getType h peerOutDataNode ≠ "Data" then none
    else
      let idx := (h.anchor inAnchor).idx.toNat
      let refD := (x.ofNode (h.node peerOutDataNode).op).getD 0
      let refN :=
        match (h.desc netoutput).mutableInputDesc idx with
        | none => 0
        | some _ => (x.ofInput (h.node netoutput).op idx).getD 0
      some (refD, refN)

/-- `BuildRefRelationsForWhile`: a class for each index of the loop, joined with those that data ties it to. -/
def buildRefRelationsForWhile (rootNode : NodeId) (classedDataNodes : List (List NodeId))
    (classedNetoutputNodes : List (List (NodeId × Nat))) : Except RefFault (List (List RefCell)) := do
  let inputNum := (h.node rootNode).inDataAnchors.length
  let nodeRefs ← (List.range inputNum).mapM fun i =>
    match classedDataNodes[i]?, classedNetoutputNodes[i]? with
    | some data, some nets => .ok (whileClass h rootNode i data nets)
    | _, _ => .error .outOfRange
  let netoutputs := (classedNetoutputNodes.take inputNum).flatten.map Prod.fst
  match netoutputs.getLast? with
  | none => return nodeRefs
  | some netoutput =>
    ((h.node netoutput).inDataAnchors.filterMap (tiedIndexes h x netoutput)).foldlM
      (fun nodeRefs tie => joinClasses nodeRefs tie.1 tie.2) nodeRefs

/-- `BuildRelationsWithFuncNodeType`. -/
def buildRelationsWithFuncNodeType (rootNode : NodeId) (classedDataNodes : List (List NodeId))
    (classedNetoutputNodes : List (List (NodeId × Nat))) : Except RefFault (List (List RefCell)) :=
  if Node.getType h rootNode ≠ "While" then
    .ok (buildRefRelationsForBranch h rootNode classedDataNodes classedNetoutputNodes)
  else buildRefRelationsForWhile h x rootNode classedDataNodes classedNetoutputNodes

/-- One turn of the loop of `BuildRefRelations`: the classes of a node, none when it runs no subgraphs. -/
def nodeRefs (fuel : Nat) (rootGraph : GraphId) (node : NodeId) : Except RefFault (List (List RefCell)) := do
  let subGraphNames := (h.desc node).subgraphInstanceNames
  if subGraphNames.isEmpty then return []
  let (dataNodes, netoutputNodes) ←
    getDataAndNetoutputOfSubGraph h fuel rootGraph (Node.getType h node) subGraphNames 0 ([], [])
  let maxElemNum := max dataNodes.length kMaxElementNum
  let classedDataNodes ← processSubgraphDataNodes h x dataNodes (List.replicate maxElemNum [])
  let classedNetoutputNodes ← processSubgraphNetoutput h x netoutputNodes (List.replicate maxElemNum [])
  buildRelationsWithFuncNodeType h x node classedDataNodes classedNetoutputNodes

/-- The loop of `BuildRefRelations`: the classes entered, and the fault that ended it, if any. -/
def relateNodes (fuel : Nat) (rootGraph : GraphId) : List NodeId → RefRelations → RefRelations × Option RefFault
  | [], r => (r, none)
  | node :: nodes, r =>
    match nodeRefs h x fuel rootGraph node with
    | .error fault => (r, some fault)
    | .ok refs => relateNodes fuel rootGraph nodes (if refs.isEmpty then r else { r with values := r.values ++ [refs] })

/-- The relations of the nodes of a list, with the table when no fault ends the loop. -/
def relate (address : NodeId → Nat) (fuel : Nat) (rootGraph : GraphId) (nodes : List NodeId) (r : RefRelations) :
    RefRelations × Option RefFault :=
  match relateNodes h x fuel rootGraph nodes r with
  | (r, none) => (buildLookUpTables address r, none)
  | (r, some fault) => (r, some fault)

end Classes

/-! ## Building -/

/-- `FindRootGraph`: the graph without a parent above. How many parents may be climbed stands for whether it returns. -/
def findRootGraph (h : Heap) : Nat → GraphId → Option GraphId
  | 0, _ => none
  | fuel + 1, graph =>
    match (h.graph graph).parentGraph with
    | none => some graph
    | some parent => findRootGraph h fuel parent

/-- `GetRootGraph`: the root of a graph is assigned to what the second argument refers to. -/
def getRootGraph {α : Type} (fuel : Nat) (graph rootGraph : GraphId) (s : RefGraphs α) : Option (RefGraphs α) :=
  match (s.heap.graph graph).parentGraph with
  | none => some (s.assign rootGraph graph)
  | some parentGraph => (findRootGraph s.heap fuel parentGraph).map fun root => s.assign rootGraph root

/-- `BuildRefRelations`. What is to be the root graph refers to the graph passed in. -/
def buildRefRelations {α : Type} (x : RefIndexes) (address : NodeId → Nat) (fuel : Nat) (graph : GraphId) (r : RefRelations)
    (s : RefGraphs α) : Option ((RefRelations × Option RefFault) × RefGraphs α) := do
  let rootGraph := graph
  let s ← getRootGraph fuel graph rootGraph s
  let nodes ← ComputeGraph.getAllNodes s.heap fuel graph
  return (relate s.heap x address fuel rootGraph nodes r, s)

end RefRelations

end Metadef
