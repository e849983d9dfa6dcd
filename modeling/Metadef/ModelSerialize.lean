import Metadef.Linking
import Metadef.OpSerialize
import Metadef.Subgraphs

/-!
# Writing and reading models

The graph and model part of `model_serialize.cc`. A model is written as the messages of its graphs, the first the root; links are
written with the operator they lead to, as the name of their source and its index. Reading makes new objects: first the nodes of a
graph with requests for its links, inputs and outputs, then what was asked for.
-/

namespace Metadef

/-- The message of a graph. -/
structure GraphDef where
  name : String := ""
  input : List String := []
  output : List String := []
  op : List OpDef := []
  deriving DecidableEq, Repr

/-- The message of a model. -/
structure ModelDef where
  graph : List GraphDef := []
  deriving DecidableEq, Repr

/-- A link asked for. -/
structure NodeNameNodeReq where
  srcNodeName : String
  srcOutIndex : Int
  dstNode : NodeId
  dstInIndex : Nat
  dstNodeName : String
  deriving DecidableEq, Repr

/-- An input or output of a graph asked for. -/
structure NodeNameGraphReq where
  nodeName : String
  index : Int
  graph : GraphId
  deriving DecidableEq, Repr

/-- The requests of a reader and the nodes it has made by name. -/
structure ModelSerializeImp where
  nodeInputNodeNames : List NodeNameNodeReq := []
  graphInputNodeNames : List NodeNameGraphReq := []
  graphOutputNodeNames : List NodeNameGraphReq := []
  nodeMap : OrderedMap String NodeId := []
  deriving DecidableEq, Repr

namespace ModelSerializeImp

/-! ## Names with an index -/

/-- A list before and behind the last place an item has. -/
def splitLast {α : Type} [DecidableEq α] (sep : α) : List α → Option (List α × List α)
  | [] => none
  | c :: l =>
    match splitLast sep l with
    | some (front, back) => some (c :: front, back)
    | none => if c = sep then some ([], l) else none

/-- The number decimal digits write, behind a number. -/
def digitsValue : Nat → List Char → Nat
  | n, [] => n
  | n, c :: l => if c.isDigit then digitsValue (10 * n + (c.toNat - '0'.toNat)) l else n

/-- `strtol` in base ten: white space, a sign and digits, what follows ignored. A number out of range is cut to the range. -/
def strtol (l : List Char) : Int :=
  match l.dropWhile fun c => c = ' ' || (9 ≤ c.toNat && c.toNat ≤ 13) with
  | '-' :: l => max (-(2 ^ 63)) (-(digitsValue 0 l : Int))
  | '+' :: l => min (2 ^ 63 - 1) (digitsValue 0 l : Int)
  | l => min (2 ^ 63 - 1) (digitsValue 0 l : Int)

/-- `ParseNodeIndex`: the name before the last colon, and the number behind it as 32 bits. -/
def parseNodeIndex (nodeIndex : String) : Option (String × Int) :=
  match splitLast ':' nodeIndex.toList with
  | none => none
  | some (name, index) => some (String.ofList name, (strtol index).bmod (2 ^ 32))

/-! ## Writing -/

/-- `SerializeEdge`: each data input with its source, empty where it has none, then the control sources. -/
def serializeEdge (h : Heap) (node : NodeId) (d : OpDef) : OpDef :=
  let data := (h.node node).inDataAnchors.map fun a =>
    match InDataAnchor.getPeerOutAnchor h a with
    | some peer => Node.getName h (h.owner peer) ++ ":" ++ toString (h.anchor peer).idx
    | none => ""
  let control := (InControlAnchor.getPeerOutControlAnchors h (h.node node).inControlAnchor).map fun peer =>
    Node.getName h (h.owner peer) ++ ":-1"
  { d with input := data ++ control }

def serializeNode (h : Heap) (node : NodeId) : Option OpDef := (serializeOpDesc (h.desc node)).map (serializeEdge h node)

def serializeGraph (h : Heap) (graph : GraphId) : Option GraphDef := do
  let op ← (h.graph graph).nodes.mapM (serializeNode h)
  return { name := (h.graph graph).name
           input := (h.graph graph).inputNodes.map fun n => Node.getName h n ++ ":0"
           output := (h.graph graph).outputNodesInfo.map fun o => Node.getName h o.1 ++ ":" ++ toString o.2
           op }

/-- `SerializeModel` of a model with a root graph. -/
def serializeModel (h : Heap) (computeGraph : GraphId) : Option ModelDef := do
  let root ← serializeGraph h computeGraph
  let subgraphs ← (h.graph computeGraph).subGraph.mapM (serializeGraph h)
  return { graph := root :: subgraphs }

/-! ## Reading a graph -/

/-- The links the inputs of an operator ask for. The index counts the inputs that are no control links. -/
def readInputs (dstNode : NodeId) (dstNodeName : String) : List String → Nat → List NodeNameNodeReq
  | [], _ => []
  | input :: l, dstIndex =>
    match parseNodeIndex input with
    | none => readInputs dstNode dstNodeName l (dstIndex + 1)
    | some (srcNodeName, index) =>
      { srcNodeName, srcOutIndex := index, dstNode, dstInIndex := dstIndex, dstNodeName } ::
        readInputs dstNode dstNodeName l (if 0 ≤ index then dstIndex + 1 else dstIndex)

/-- `UnserializeNode`. -/
def unserializeNode (graph : GraphId) (d : OpDef) (imp : ModelSerializeImp) : Cmd Heap (Bool × ModelSerializeImp) := do
  let h ← get
  let opDesc := h.opCount
  modify (LinkCall.makeOp (unserializeOpDesc d))
  let h ← get
  let some node ← ComputeGraph.addOpNodeWithId graph (some opDesc) (h.op opDesc).getId | return (false, imp)
  return (true, { imp with nodeInputNodeNames := imp.nodeInputNodeNames ++ readInputs node d.name d.input 0
                           nodeMap := imp.nodeMap.assign d.name node })

def unserializeNodes (graph : GraphId) : List OpDef → ModelSerializeImp → Cmd Heap (Bool × ModelSerializeImp)
  | [], imp => return (true, imp)
  | d :: l, imp => do
    let (ok, imp) ← unserializeNode graph d imp
    if !ok then return (false, imp)
    unserializeNodes graph l imp

/-- A new graph of a name. -/
def makeGraph (name : String) : Cmd Heap GraphId := do
  let h ← get
  set ({ h with graphCount := h.graphCount + 1 }.setGraph h.graphCount { name })
  return h.graphCount

/-- The inputs or outputs of a graph asked for. -/
def readEnds (graph : GraphId) (ends : List String) : List NodeNameGraphReq :=
  (ends.filterMap parseNodeIndex).map fun e => { nodeName := e.1, index := e.2, graph }

/-- `UnserializeGraphWithoutEdge`. -/
def unserializeGraphWithoutEdge (d : GraphDef) (imp : ModelSerializeImp) : Cmd Heap (Bool × GraphId × ModelSerializeImp) := do
  let graph ← makeGraph d.name
  let imp := { imp with graphInputNodeNames := imp.graphInputNodeNames ++ readEnds graph d.input
                        graphOutputNodeNames := imp.graphOutputNodeNames ++ readEnds graph d.output }
  let (ok, imp) ← unserializeNodes graph d.op imp
  return (ok, graph, imp)

/-! ## Meeting requests -/

/-- Links a source to a target, whatever comes of the link. -/
def handleEdge (imp : ModelSerializeImp) (item : NodeNameNodeReq) : Cmd Heap Bool := do
  let some srcNode := imp.nodeMap.find item.srcNodeName | return false
  let h ← get
  if 0 ≤ item.srcOutIndex then
    let some srcAnchor := Node.getOutDataAnchor h srcNode item.srcOutIndex | return false
    let some dstAnchor := Node.getInDataAnchor h item.dstNode item.dstInIndex | return false
    let _ ← OutDataAnchor.linkTo srcAnchor (some dstAnchor)
    return true
  else
    let _ ← OutControlAnchor.linkTo (h.node srcNode).outControlAnchor (some (h.node item.dstNode).inControlAnchor)
    return true

def handleInput (imp : ModelSerializeImp) (item : NodeNameGraphReq) : Cmd Heap Bool := do
  let some node := imp.nodeMap.find item.nodeName | return false
  let some _ ← ComputeGraph.addInputNode item.graph (some node) | return false
  return true

def handleOutput (imp : ModelSerializeImp) (item : NodeNameGraphReq) : Cmd Heap Bool := do
  let some node := imp.nodeMap.find item.nodeName | return false
  let some _ ← ComputeGraph.addOutputNodeByIndex item.graph (some node) item.index | return false
  return true

/-- `HandleNodeNameRef`. -/
def handleNodeNameRef (imp : ModelSerializeImp) : Cmd Heap Bool := do
  if !(← Cmd.eachOk (handleEdge imp) imp.nodeInputNodeNames) then return false
  if !(← Cmd.eachOk (handleInput imp) imp.graphInputNodeNames) then return false
  Cmd.eachOk (handleOutput imp) imp.graphOutputNodeNames

/-! ## Rebuilding the nesting -/

/-- The loop over the instance names of a node: the graphs they lead to, none when one leads to no graph. -/
def rebuildNode (computeGraph : GraphId) (subgraphs : OrderedMap String GraphId) (graph : GraphId) (node : NodeId) :
    List String → Cmd Heap (Option (List GraphId))
  | [] => return some []
  | name :: names => do
    let some subgraph := subgraphs.find name | return none
    ComputeGraph.edit subgraph fun g => { g with parentGraph := some graph }
    ComputeGraph.edit subgraph fun g => { g with parentNode := some node }
    let h ← get
    let _ ← ComputeGraph.addSubgraph computeGraph (h.graph subgraph).name (some subgraph)
    let some rest ← rebuildNode computeGraph subgraphs graph node names | return none
    return some (subgraph :: rest)

/-- The loop over the nodes of a graph. -/
def rebuildNodes (computeGraph : GraphId) (subgraphs : OrderedMap String GraphId) (graph : GraphId) :
    List NodeId → Cmd Heap (Option (List GraphId))
  | [] => return some []
  | node :: nodes => do
    let h ← get
    let some found ← rebuildNode computeGraph subgraphs graph node (h.desc node).subgraphInstanceNames | return none
    let some rest ← rebuildNodes computeGraph subgraphs graph nodes | return none
    return some (found ++ rest)

/-- `RebuildOwnership`: a queue of graphs, each refilling it with those its nodes lead to. The first argument bounds how many are
taken off the queue. -/
def rebuildOwnership (computeGraph : GraphId) (subgraphs : OrderedMap String GraphId) : Nat → List GraphId → Cmd Heap Bool
  | 0, _ => Cmd.undef
  | _ + 1, [] => return true
  | fuel + 1, graph :: allGraphs => do
    let h ← get
    let some found ← rebuildNodes computeGraph subgraphs graph (h.graph graph).nodes | return false
    rebuildOwnership computeGraph subgraphs fuel (allGraphs ++ found)

/-! ## Reading a model -/

/-- The loop over the messages behind the root's: the graphs by name, of one name the last. -/
def unserializeSubgraphs : List GraphDef → OrderedMap String GraphId → Cmd Heap (Option (OrderedMap String GraphId))
  | [], subgraphs => return some subgraphs
  | d :: l, subgraphs => do
    let (ok, subgraph, imp) ← unserializeGraphWithoutEdge d {}
    if !ok then return none
    if !(← handleNodeNameRef imp) then return none
    let h ← get
    unserializeSubgraphs l (subgraphs.assign (h.graph subgraph).name subgraph)

/-- `UnserializeModel`: whether it succeeds, and the root graph of the model when there is one. -/
def unserializeModel (fuel : Nat) (d : ModelDef) : Cmd Heap (Bool × Option GraphId) :=
  match d.graph with
  | [] => return (true, none)
  | root :: l => do
    let (ok, computeGraph, imp) ← unserializeGraphWithoutEdge root {}
    let graph := if ok then some computeGraph else none
    let some subgraphs ← unserializeSubgraphs l [] | return (false, graph)
    if !(← rebuildOwnership computeGraph subgraphs fuel [computeGraph]) then return (false, graph)
    if !(← handleNodeNameRef imp) then return (false, graph)
    return (true, graph)

/-- `UnserializeModel` as callers see it: the model read must have a graph. -/
def load (fuel : Nat) (d : ModelDef) : Cmd Heap (Bool × Option GraphId) := do
  let (ok, graph) ← unserializeModel fuel d
  return (ok && graph.isSome, graph)

end ModelSerializeImp

end Metadef
