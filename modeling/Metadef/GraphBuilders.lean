import Metadef.AttrValue
import Metadef.CopyGraph

/-!
# Graph builders

`ComputeGraphBuilder`, `PartialGraphBuilder` and `CompleteGraphBuilder` of `graph_utils.cc`. The calls of a caller are kept in lists
and maps. `Build` goes through phases, each of which stops at the first error and tells its text; the first phase that fails ends it.
-/

namespace Metadef

/-! ## Errors -/

/-- `error_code`, whether it is a failure, and `error_msg`. -/
structure BuildError where
  failed : Bool := false
  msg : String := ""
  deriving DecidableEq, Repr

/-- What a phase makes of them: it writes them only where it fails. -/
def BuildError.after (e : BuildError) : Option String → BuildError
  | none => e
  | some msg => ⟨true, msg⟩

section Phases

variable {σ α : Type}

/-- The loop of a phase over items: it ends at the first that has an error. -/
def eachItem (f : α → Cmd σ (Option String)) : List α → Cmd σ (Option String)
  | [] => pure none
  | a :: as => do
    let some msg ← f a | eachItem f as
    return some msg

/-- Phases one after the other, as long as the code is that of success. -/
def phases : List (Cmd σ (Option String)) → BuildError → Cmd σ BuildError
  | [], e => pure e
  | phase :: rest, e => do
    let e := e.after (← phase)
    if e.failed then return e
    phases rest e

end Phases

/-! ## What all builders share -/

/-- The members that the calls fill. A link is from the output of a node to the input of another, or from one node to another. -/
structure ComputeGraphBuilder where
  ownerGraph : Option GraphId := none
  nodes : List (Option OpId) := []
  dataLinks : List ((String × UInt32) × (String × UInt32)) := []
  ctrlLinks : List (String × String) := []
  deriving DecidableEq, Repr

/-- The objects, and `node_names_`. Only nodes that are there are entered. -/
structure NamedNodes where
  heap : Heap
  nodeNames : OrderedMap String NodeId := []

namespace NamedNodes

/-- A command on the objects. -/
def onHeap {α : Type} (c : Cmd Heap α) : Cmd NamedNodes α := fun s => (c s.heap).map fun r => (r.1, { s with heap := r.2 })

/-- `node_names_[name] = node`. -/
def enter (name : String) (node : NodeId) : Cmd NamedNodes Unit :=
  modify fun s => { s with nodeNames := s.nodeNames.assign name node }

end NamedNodes

/-- The index an anchor is looked up by: a number of 32 bits is read with a sign. -/
def anchorIndex (ind : UInt32) : Int := ind.toInt32.toInt

namespace ComputeGraphBuilder

open NamedNodes

variable (b : ComputeGraphBuilder)

def addNode (opDesc : Option OpId) : ComputeGraphBuilder := { b with nodes := b.nodes ++ [opDesc] }

def addDataLink (srcName : String) (outAnchorInd : UInt32) (dstName : String) (inAnchorInd : UInt32) : ComputeGraphBuilder :=
  { b with dataLinks := b.dataLinks ++ [((srcName, outAnchorInd), (dstName, inAnchorInd))] }

def addControlLink (srcName dstName : String) : ComputeGraphBuilder := { b with ctrlLinks := b.ctrlLinks ++ [(srcName, dstName)] }

/-- The round of `BuildNodes` over a descriptor. -/
def buildNode (graph : GraphId) (opDesc : Option OpId) : Cmd NamedNodes (Option String) := do
  let some op := opDesc | return some "op_desc is NULL."
  let nodeName := ((← get).heap.op op).getName
  let some node ← onHeap (ComputeGraph.addOpNode graph (some op)) | return some ("Add node " ++ nodeName ++ " failed.")
  enter nodeName node
  return none

def buildNodes : Cmd NamedNodes (Option String) := do
  let some graph := b.ownerGraph | return some "graph is NULL."
  eachItem (buildNode graph) b.nodes

/-- The round of `BuildDataLinks` over a link. -/
def buildDataLink (link : (String × UInt32) × (String × UInt32)) : Cmd NamedNodes (Option String) := do
  let ((srcName, outInd), (dstName, inInd)) := link
  let logMsg := "Add data-edge " ++ srcName ++ ":" ++ toString outInd ++ "->" ++ dstName ++ ":" ++ toString inInd
  let s ← get
  match s.nodeNames.find srcName, s.nodeNames.find dstName with
  | some srcNode, some dstNode =>
    if !(← onHeap (GraphUtils.addDataEdge (Node.getOutDataAnchor s.heap srcNode (anchorIndex outInd))
      (Node.getInDataAnchor s.heap dstNode (anchorIndex inInd)))) then return some (logMsg ++ " failed.")
    return none
  | _, _ => return some (logMsg ++ " failed: node not exist in graph.")

def buildDataLinks : Cmd NamedNodes (Option String) := eachItem buildDataLink b.dataLinks

/-- The round of `BuildCtrlLinks` over a link. -/
def buildCtrlLink (link : String × String) : Cmd NamedNodes (Option String) := do
  let (srcName, dstName) := link
  let logMsg := "Add ctrl-edge " ++ srcName ++ "->" ++ dstName
  let s ← get
  match s.nodeNames.find srcName, s.nodeNames.find dstName with
  | some srcNode, some dstNode =>
    if !(← onHeap (GraphUtils.addControlEdge (some (s.heap.node srcNode).outControlAnchor)
      (some (s.heap.node dstNode).inControlAnchor))) then return some (logMsg ++ " failed.")
    return none
  | _, _ => return some (logMsg ++ " failed: node not exist in graph.")

def buildCtrlLinks : Cmd NamedNodes (Option String) := eachItem buildCtrlLink b.ctrlLinks

end ComputeGraphBuilder

/-! ## Partial graphs -/

structure PartialGraphBuilder extends ComputeGraphBuilder where
  existNodes : List (Option NodeId) := []
  deriving DecidableEq, Repr

/-- A call of a caller. A pointer that may be null is an option. -/
inductive PartialGraphCall where
  | setOwnerGraph (graph : Option GraphId)
  | addNode (opDesc : Option OpId)
  | addExistNode (node : Option NodeId)
  | addDataLink (srcName : String) (outAnchorInd : UInt32) (dstName : String) (inAnchorInd : UInt32)
  | addControlLink (srcName dstName : String)
  deriving DecidableEq, Repr

namespace PartialGraphBuilder

open NamedNodes

variable (b : PartialGraphBuilder)

def call : PartialGraphCall → PartialGraphBuilder
  | .setOwnerGraph graph => { b with ownerGraph := graph }
  | .addNode opDesc => { b with toComputeGraphBuilder := b.toComputeGraphBuilder.addNode opDesc }
  | .addExistNode node => { b with existNodes := b.existNodes ++ [node] }
  | .addDataLink srcName outAnchorInd dstName inAnchorInd =>
    { b with toComputeGraphBuilder := b.toComputeGraphBuilder.addDataLink srcName outAnchorInd dstName inAnchorInd }
  | .addControlLink srcName dstName => { b with toComputeGraphBuilder := b.toComputeGraphBuilder.addControlLink srcName dstName }

/-- The builder after calls on a new one. -/
def ofCalls (calls : List PartialGraphCall) : PartialGraphBuilder := calls.foldl call {}

/-- The round of `BuildExistNodes` over a node. -/
def buildExistNode (graph : GraphId) (node : Option NodeId) : Cmd NamedNodes (Option String) := do
  let some node := node | return some "Build exist nodes failed: node is NULL."
  let s ← get
  let nodeName := Node.getName s.heap node
  if (s.heap.node node).ownerGraph ≠ some graph then
    return some ("Build exist nodes failed: node " ++ nodeName ++ " not belongs to this graph.")
  enter nodeName node
  return none

def buildExistNodes (graph : GraphId) : Cmd NamedNodes (Option String) := eachItem (buildExistNode graph) b.existNodes

/-- `Build`: the graph, a null pointer on an error. -/
def build (e : BuildError) : Cmd NamedNodes (Option GraphId × BuildError) := do
  let some graph := b.ownerGraph | return (none, ⟨true, "graph is NULL."⟩)
  let e ← phases [b.buildNodes, b.buildExistNodes graph, b.buildDataLinks, b.buildCtrlLinks] e
  return (if e.failed then none else some graph, e)

end PartialGraphBuilder

end Metadef
