import Metadef.ModelSerialize

/-!
# Dumping models in the open format

The functions of `ge_ir_utils.cc` as far as they make the structure of a model: its graphs, their nodes, links and ends. A node is
written with its links in the texts `ModelSerialize` uses; its descriptors are counted by attributes, which stand among those of the
node. An attribute that is written is held as its name and integer, the integer of one of another type being zero.
-/

namespace Metadef

/-- The levels of `DumpLevel`. -/
inductive DumpLevel where
  | noDump | dumpAll | dumpWithOutData | dumpWithOutDesc
  deriving DecidableEq, Repr

/-- The types of attributes. -/
inductive AttributeType where
  | undefined | float | int | string | tensor | graph | sparseTensor | floats | ints | strings | tensors | graphs | sparseTensors
  deriving DecidableEq, Repr

/-- An attribute, which may hold a graph. -/
structure AttributeProto (γ : Type) where
  name : String
  type : AttributeType := .int
  i : Int := 0
  s : String := ""
  ints : List Int64 := []
  strings : List String := []
  g : Option γ := none

/-- The message of a node, or of a graph that stands among the nodes. -/
structure NodeProto (γ : Type) where
  name : String
  opType : String
  input : List String := []
  attributes : List (AttributeProto γ) := []

/-- The message of a graph. -/
inductive GraphProto where
  | mk (name : String) (input output : List String) (node : List (NodeProto GraphProto))

/-- The message of a model. -/
structure ModelProto where
  graph : GraphProto

namespace OnnxUtils

open ModelSerializeImp (parseNodeIndex makeGraph)

/-- `kNodeTypeForSubgraph`. -/
def nodeTypeForSubgraph : String := "subgraph"

/-- `kMaxRecursionDepth`. -/
def maxRecursionDepth : Nat := 10

/-! ## Writing -/

section

-- the attributes of the nodes and of the messages of their descriptors
variable (attrs : NodeId → List (String × Int)) (level : DumpLevel) (h : Heap)

/-- `EncodeNodeDesc`: the attributes of a node with those that count its descriptors, sorted by name. -/
def encodeNodeDesc (node : NodeId) : List (AttributeProto GraphProto) :=
  let counts : List (String × Int) :=
    [("input_desc_nums", (h.desc node).getAllInputsSize), ("output_desc_nums", (h.desc node).getOutputsSize),
      ("id", (h.desc node).getId)]
  ((attrs node ++ counts).map fun e => { name := e.1, i := e.2 }).mergeSort fun a b => !decide (b.name < a.name)

/-- `EncodeNodeLink`: each data input with its source, empty where it has none, then the control sources. -/
def encodeNodeLink (node : NodeId) : List String :=
  ((h.node node).inDataAnchors.map fun a =>
    match InDataAnchor.getPeerOutAnchor h a with
    | some peer => Node.getName h (h.owner peer) ++ ":" ++ toString (h.anchor peer).idx
    | none => "") ++
  (InControlAnchor.getPeerOutControlAnchors h (h.node node).inControlAnchor).map fun peer =>
    Node.getName h (h.owner peer) ++ ":-1"

/-- `EncodeNode`. -/
def encodeNode (node : NodeId) : NodeProto GraphProto :=
  { name := Node.getName h node
    opType := "ge:" ++ Node.getType h node
    input := encodeNodeLink h node
    attributes := if level = .dumpWithOutDesc then [] else encodeNodeDesc attrs h node }

/-- The names of the inputs and of the outputs of a graph, and its nodes. -/
def encodeGraph (graph : GraphId) (more : List (NodeProto GraphProto)) : GraphProto :=
  .mk (h.graph graph).name ((h.graph graph).inputNodes.map (Node.getName h))
    ((h.graph graph).outputNodesInfo.map fun o => Node.getName h o.1)
    ((h.graph graph).nodes.map (encodeNode attrs level h) ++ more)

/-- A graph as a node. -/
def encodeSubgraph (graph : GraphId) : NodeProto GraphProto :=
  { name := (h.graph graph).name
    opType := nodeTypeForSubgraph
    attributes := [{ name := "graph", type := .graph, g := some (encodeGraph attrs level h graph []) }] }

/-- `ConvertGeModelToModelProto` of a model with a root graph, whose subgraphs stand behind its nodes. -/
def convertGeModelToModelProto (computeGraph : GraphId) : ModelProto :=
  { graph := encodeGraph attrs level h computeGraph ((h.graph computeGraph).subGraph.map (encodeSubgraph attrs level h)) }

end

/-! ## Reading a node -/

/-- `ParseNameIndex`. -/
def parseNameIndex (nodeNameIndex : String) : Option (String × Int) := parseNodeIndex nodeNameIndex

/-- A text behind its first colon. -/
def afterColon (s : String) : Option String :=
  match s.toList.dropWhile (· ≠ ':') with
  | [] => none
  | _ :: l => some (String.ofList l)

/-- Adds empty input descriptors. -/
def addInputDescs : Nat → OpDesc → OpDesc
  | 0, op => op
  | n + 1, op => addInputDescs n (op.addInputDesc {}).2

/-- Adds empty output descriptors. -/
def addOutputDescs : Nat → OpDesc → OpDesc
  | 0, op => op
  | n + 1, op => addOutputDescs n (op.addOutputDesc {}).2

/-- Adds the descriptors an attribute counts. -/
def addCounted (op : OpDesc) (attr : AttributeProto GraphProto) : OpDesc :=
  let op := if attr.name = "input_desc_nums" then addInputDescs attr.i.toNat op else op
  if attr.name = "output_desc_nums" then addOutputDescs attr.i.toNat op else op

/-- `DecodeNodeAttributeForOpDesc`, for the id. -/
def decodeNodeAttributeForOpDesc (op : OpDesc) (attr : AttributeProto GraphProto) : OpDesc :=
  if attr.name = "id" then op.setId attr.i else op

/-- `DecodeNodeDesc`: the type is what stands behind the first colon. -/
def decodeNodeDesc (p : NodeProto GraphProto) : Option OpDesc :=
  (afterColon p.opType).map fun type =>
    p.attributes.foldl decodeNodeAttributeForOpDesc (p.attributes.foldl addCounted (OpDesc.make p.name type))

/-! ## Reading links -/

/-- A link to be made. -/
abbrev NodeLinkInfo := NodeNameNodeReq

/-- `DecodeNodeLinkImp`: a link that is refused is a failure. -/
def decodeNodeLinkImp (item : NodeLinkInfo) (node : NodeId) : Cmd Heap Bool := do
  let h ← get
  if 0 ≤ item.srcOutIndex then
    let some srcAnchor := Node.getOutDataAnchor h node item.srcOutIndex | return false
    let some dstAnchor := Node.getInDataAnchor h item.dstNode item.dstInIndex | return false
    OutDataAnchor.linkTo srcAnchor (some dstAnchor)
  else
    OutControlAnchor.linkTo (h.node node).outControlAnchor (some (h.node item.dstNode).inControlAnchor)

/-- The loop over the inputs of a node. The index counts those that are no control links. -/
def decodeInputs (nodeMap : OrderedMap String NodeId) (dstNode : NodeId) (dstNodeName : String) :
    List String → Nat → Cmd Heap Bool
  | [], _ => return true
  | input :: l, dstIndex =>
    match parseNameIndex input with
    | none => decodeInputs nodeMap dstNode dstNodeName l (dstIndex + 1)
    | some (srcNodeName, index) => do
      let some srcNode := nodeMap.find srcNodeName | return false
      if !(← decodeNodeLinkImp { srcNodeName, srcOutIndex := index, dstNode, dstInIndex := dstIndex, dstNodeName } srcNode) then
        return false
      decodeInputs nodeMap dstNode dstNodeName l (if 0 ≤ index then dstIndex + 1 else dstIndex)

/-- `DecodeNodeLink`. -/
def decodeNodeLink (nodeMap : OrderedMap String NodeId) : List (NodeProto GraphProto) → Cmd Heap Bool :=
  Cmd.eachOk fun p => do
    let some dstNode := nodeMap.find p.name | return false
    decodeInputs nodeMap dstNode p.name p.input 0

/-! ## Reading a graph -/

/-- The loop over the nodes of a graph, with the function that reads a graph among them: the nodes by name, of one name the first,
and the messages of nodes. A subgraph node without an attribute is read out of range. -/
def decodeNodes (decodeSub : GraphProto → Cmd Heap (Option GraphId)) (graph : GraphId) :
    List (NodeProto GraphProto) → OrderedMap String NodeId → List (NodeProto GraphProto) →
      Cmd Heap (Option (OrderedMap String NodeId × List (NodeProto GraphProto)))
  | [], nodeMap, protos => return some (nodeMap, protos)
  | p :: l, nodeMap, protos =>
    if p.opType = nodeTypeForSubgraph then
      match p.attributes with
      | [] => Cmd.undef
      | attr :: _ => do
        if attr.type ≠ .graph then return none
        let some subgraph ← decodeSub (attr.g.getD (.mk "" [] [] [])) | return none
        let _ ← ComputeGraph.addSubGraph graph (some subgraph)
        decodeNodes decodeSub graph l nodeMap protos
    else
      match decodeNodeDesc p with
      | none => return none
      | some op => do
        let h ← get
        let opDesc := h.opCount
        modify (LinkCall.makeOp op)
        let some node ← ComputeGraph.addOpNode graph (some opDesc) | return none
        decodeNodes decodeSub graph l (nodeMap.insert p.name node) (protos ++ [p])

/-- An input of a graph. -/
def decodeInput (graph : GraphId) (nodeMap : OrderedMap String NodeId) (name : String) : Cmd Heap Bool := do
  let some node := nodeMap.find name | return false
  let _ ← ComputeGraph.addInputNode graph (some node)
  return true

/-- An output of a graph, by `AddOutputNode`. -/
def decodeOutput (graph : GraphId) (nodeMap : OrderedMap String NodeId) (name : String) : Cmd Heap Bool := do
  let some node := nodeMap.find name | return false
  let _ ← ComputeGraph.addOutputNodeByIndex graph (some node) 0
  return true

/-- `DecodeGraph`, the first argument how deep it may still go: none where it fails. -/
def decodeGraph : Nat → GraphProto → Cmd Heap (Option GraphId)
  | 0, _ => return none
  | depth + 1, .mk name input output node => do
    let graph ← makeGraph name
    let some (nodeMap, protos) ← decodeNodes (decodeGraph depth) graph node [] [] | return none
    if !(← decodeNodeLink nodeMap protos) then return none
    if !(← Cmd.eachOk (decodeInput graph nodeMap) input) then return none
    if !(← Cmd.eachOk (decodeOutput graph nodeMap) output) then return none
    return some graph

/-- `ConvertModelProtoToGeModel`: the root graph of the model read. -/
def convertModelProtoToGeModel (p : ModelProto) : Cmd Heap (Option GraphId) := decodeGraph (maxRecursionDepth + 1) p.graph

end OnnxUtils

end Metadef
