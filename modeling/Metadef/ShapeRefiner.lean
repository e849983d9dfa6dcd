import Metadef.RefRelation
import Metadef.Shapes

/-!
# Shapes of branches

The outputs of a node that runs one of several graphs, in `shape_refiner.cc`. The graphs give each output a list of tensors, one
for each graph that has it; the node gets one tensor made of them, or the largest of them when the graphs are batches.
-/

namespace Metadef

/-! ## Data -/

inductive GraphStatus
  | success | failed | paramInvalid
  deriving DecidableEq, Repr

/-- The tensor descriptor of an output, with its other fields, which are copied with it. -/
structure OutTensor (α : Type) where
  shape : GeShape
  dataType : DataType
  rest : α

/-- The node that runs the graphs: whether they are batches, and its outputs. -/
structure BranchNode (α : Type) where
  hasBatchNum : Bool
  outputs : List (OutTensor α)

namespace BranchNode

variable {α : Type}

/-- Updates an output that is there. -/
def updateOutputDesc (node : BranchNode α) (index : Nat) (tensor : OutTensor α) : BranchNode α :=
  { node with outputs := node.outputs.set index tensor }

/-! ## Batches -/

/-- Why no tensor is selected. A division by zero has no outcome in the source. -/
inductive SelectFault
  | dataTypes | overflow | divisionByZero
  deriving DecidableEq, Repr

/-- Counts the elements of a shape. Overflow is asked for with a quotient before each multiplication. -/
def countElements (size : Int64) : List Int64 → Except SelectFault Int64
  | [] => .ok size
  | dim :: dims =>
    if dim = 0 then .error .divisionByZero
    else if Int64.maxValue / dim < size then .error .overflow
    else countElements (size * dim) dims

/-- Looks through tensors from a position on for one with more elements than the best so far. -/
def selectMax (dataType : DataType) : (j : Nat) → (maxSize : Int64) → (maxShapeIndex : Nat) → List (OutTensor α) →
    Except SelectFault Nat
  | _, _, maxShapeIndex, [] => .ok maxShapeIndex
  | j, maxSize, maxShapeIndex, tensor :: tensors =>
    if dataType ≠ tensor.dataType then .error .dataTypes
    else match countElements 1 tensor.shape.getDims with
      | .error e => .error e
      | .ok size =>
        if size > maxSize then selectMax dataType (j + 1) size j tensors
        else selectMax dataType (j + 1) maxSize maxShapeIndex tensors

/-- Gives every output from an index on the largest of its tensors. -/
def updataOutputForMultiBatcch (node : BranchNode α) : (i : Nat) → List (List (OutTensor α)) → Option (GraphStatus × BranchNode α)
  | _, [] => some (.success, node)
  | i, [] :: refs => updataOutputForMultiBatcch node (i + 1) refs
  | i, (ref :: tensors) :: refs =>
    match selectMax ref.dataType 0 0 0 (ref :: tensors) with
    | .error .dataTypes => some (.failed, node)
    | .error .overflow => some (.paramInvalid, node)
    | .error .divisionByZero => none
    | .ok maxShapeIndex =>
      updataOutputForMultiBatcch (node.updateOutputDesc i ((ref :: tensors).getD maxShapeIndex ref)) (i + 1) refs

/-! ## Branches -/

/-- Makes the dimensions unknown in which two shapes of one length differ. -/
def mergeDims (refDims dims : List Int64) : List Int64 := List.zipWith (fun r d => if r = d then r else unknownDim) refDims dims

/-- Merges the shapes of tensors into that of a first one, up to one of another length. There is none when data types differ. -/
def mergeTensors (ref : OutTensor α) : List (OutTensor α) → Option (OutTensor α)
  | [] => some ref
  | tensor :: tensors =>
    if ref.dataType ≠ tensor.dataType then none
    else if tensor.shape.getDims.length ≠ ref.shape.getDims.length then some { ref with shape := ⟨[unknownDimNum]⟩ }
    else mergeTensors { ref with shape := ⟨mergeDims ref.shape.getDims tensor.shape.getDims⟩ } tensors

/-- Gives every output from an index on the tensor its tensors are merged into. -/
def mergeOutputs (node : BranchNode α) : (i : Nat) → List (List (OutTensor α)) → GraphStatus × BranchNode α
  | _, [] => (.success, node)
  | i, [] :: refs => mergeOutputs node (i + 1) refs
  | i, (ref :: tensors) :: refs =>
    match mergeTensors ref (ref :: tensors) with
    | none => (.failed, node)
    | some tensor => mergeOutputs (node.updateOutputDesc i tensor) (i + 1) refs

def updateParentNodeForBranch (node : BranchNode α) (refOutTensors : List (List (OutTensor α))) : Option
    (GraphStatus × BranchNode α) :=
  if node.hasBatchNum then node.updataOutputForMultiBatcch 0 refOutTensors else some (node.mergeOutputs 0 refOutTensors)

end BranchNode

/-!
## The bodies of loops

`ReverseBrushWhileBodySubGraph` of `shape_refiner.cc`: from the inputs of a loop that vary, the outputs in its body and the inputs they
feed are given a shape of unknown rank. The nodes to be refreshed are kept on a stack. The node at the top is referred to where it is,
and then taken off.
-/

/-! ## Which inputs vary -/

namespace NodeUtils

/-- The types of loops. -/
def kWhileOpTypes : List String := ["While", "_While", "StatelessWhile"]

/-- `GetInt` of the index of a parent node into 32 bits without sign. A value that is too large is not read. -/
def getUInt32 (attr : Option Int) : Option Nat := attr.bind fun i => if 2 ^ 32 ≤ i then none else some (i % 2 ^ 32).toNat

/-- `GetSubgraph`: the graph of an instance name of a node, looked up in the root graph. -/
def getSubgraph (h : Heap) (fuel : Nat) (node : NodeId) (index : Nat) : Option (Option GraphId) :=
  match (h.node node).ownerGraph with
  | none => some none
  | some ownerGraph =>
    (RefRelations.findRootGraph h fuel ownerGraph).map fun rootGraph =>
      (h.graph rootGraph).namesToSubgraph.find ((h.desc node).subgraphInstanceNames.getD index "")

/-- The inputs a node feeds, with their nodes. -/
def getOutDataNodesAndAnchors (h : Heap) (node : NodeId) : List (NodeId × AnchorId) :=
  (h.node node).outDataAnchors.flatMap fun a => (OutDataAnchor.getPeerInDataAnchors h a).map fun peer => (h.owner peer, peer)

/-- `IsWhileVaryingInput`: a data node of a loop that does not feed the output of its own index. -/
def isWhileVaryingInput (h : Heap) (x : RefIndexes) (node : NodeId) : Bool :=
  if Node.getType h node ≠ "Data" then false
  else
    match (h.node node).ownerGraph.bind fun g => (h.graph g).parentNode with
    | none => false
    | some parentNode =>
      if Node.getType h parentNode ∉ kWhileOpTypes then false
      else
        match getUInt32 (x.ofNode (h.node node).op) with
        | none => false
        | some indexI => !(getOutDataNodesAndAnchors h node).any fun item =>
            Node.getType h item.1 = "NetOutput" ∧ getUInt32 (x.ofInput (h.node item.1).op (h.anchor item.2).idx.toNat) = some indexI

end NodeUtils

/-! ## The stack -/

/-- A place of a stack. What was there is destroyed where it is. -/
inductive StackSlot
  | empty
  | holds (node : NodeId)
  | destroyed (node : NodeId)
  deriving DecidableEq, Repr

/-- The places of a stack of nodes, and how many of them are in use. -/
structure NodeStack where
  slots : Nat → StackSlot := fun _ => .empty
  size : Nat := 0

namespace NodeStack

def push (s : NodeStack) (node : NodeId) : NodeStack :=
    { slots := Function.update s.slots s.size (.holds node), size := s.size + 1 }

/-- The place of the top, by which it is referred to. -/
def top (s : NodeStack) : Nat := s.size - 1

def pop (s : NodeStack) : NodeStack :=
  let slot := match s.slots s.top with
    | .holds node => .destroyed node
    | slot => slot
  { slots := Function.update s.slots s.top slot, size := s.size - 1 }

end NodeStack

/-- What is read through a reference to what was destroyed, from what it was. The language leaves it open. -/
abbrev DestroyedReads := NodeId → Option NodeId

/-- Reads through a reference to a place. -/
def NodeStack.read (ρ : DestroyedReads) (s : NodeStack) (place : Nat) : Option NodeId :=
  match s.slots place with
  | .empty => none
  | .holds node => some node
  | .destroyed node => ρ node

/-! ## Brushing -/

/-- The shapes of the tensor descriptors of the descriptors. -/
structure BodyShapes where
  input : OpId → Nat → GeShape
  output : OpId → Nat → GeShape

namespace BodyShapes

def unknownDimNumShape : GeShape := ⟨[unknownDimNum]⟩

/-- `SetUnknownDimNumShape` of an input and of an output. -/
def brushInput (s : BodyShapes) (op : OpId) (idx : Nat) : BodyShapes :=
  { s with input := Function.update s.input op (Function.update (s.input op) idx unknownDimNumShape) }
def brushOutput (s : BodyShapes) (op : OpId) (idx : Nat) : BodyShapes :=
  { s with output := Function.update s.output op (Function.update (s.output op) idx unknownDimNumShape) }

end BodyShapes

/-- The shapes, the nodes to be refreshed and the nodes visited. -/
structure BodyRefresh where
  shapes : BodyShapes
  refreshNodes : NodeStack := {}
  visitedNodes : List NodeId := []

namespace BodyRefresh

variable (h : Heap) (ρ : DestroyedReads)

/-- Brushes an input that is fed, and puts its node on the stack. -/
def brushPeer (s : BodyRefresh) (peerInAnchor : AnchorId) : BodyRefresh :=
  let outDataNode := h.owner peerInAnchor
  let idx := (h.anchor peerInAnchor).idx.toNat
  match (h.desc outDataNode).mutableInputDesc idx with
  | none => s
  | some _ =>
    { s with shapes := s.shapes.brushInput (h.node outDataNode).op idx, refreshNodes := s.refreshNodes.push outDataNode }

/-- Brushes an output of the node that is referred to, and the inputs it feeds. -/
def brushAnchor (curNode : Nat) (s : BodyRefresh) (outDataAnchor : AnchorId) : Option BodyRefresh := do
  let node ← s.refreshNodes.read ρ curNode
  let idx := (h.anchor outDataAnchor).idx.toNat
  if (h.desc node).outputsDesc.length ≤ idx then return s
  let s := { s with shapes := s.shapes.brushOutput (h.node node).op idx }
  return (OutDataAnchor.getPeerInDataAnchors h outDataAnchor).foldl (brushPeer h) s

/-- One turn of the loop. Each use of the node at the top is a read through the reference to it. -/
def turn (s : BodyRefresh) : Option BodyRefresh := do
  let curNode := s.refreshNodes.top
  let s := { s with refreshNodes := s.refreshNodes.pop }
  let node ← s.refreshNodes.read ρ curNode
  if node ∈ s.visitedNodes then return s
  let s ← (h.node node).outDataAnchors.foldlM (brushAnchor h ρ curNode) s
  let node ← s.refreshNodes.read ρ curNode
  return { s with visitedNodes := s.visitedNodes.insert node }

/-- The loop, for a number of turns at most. -/
def refresh : Nat → BodyRefresh → Option BodyRefresh
  | 0, _ => none
  | turns + 1, s => if s.refreshNodes.size = 0 then some s else (turn h ρ s).bind (refresh turns)

end BodyRefresh

def kWhileBodySubGraphIdx : Nat := 1

/-- The data nodes from which the body is brushed. -/
def varyingNodes (h : Heap) (x : RefIndexes) (nodes : List NodeId) : List NodeId :=
  nodes.filter fun node => Node.getType h node = "Data" ∧ NodeUtils.isWhileVaryingInput h x node

/-- `ReverseBrushWhileBodySubGraph`. -/
def reverseBrushWhileBodySubGraph (h : Heap) (x : RefIndexes) (ρ : DestroyedReads) (fuel turns : Nat) (node : NodeId)
    (shapes : BodyShapes) : Option (GraphStatus × BodyShapes) := do
  let some subGraphBody ← NodeUtils.getSubgraph h fuel node kWhileBodySubGraphIdx | return (.failed, shapes)
  let nodes ← ComputeGraph.getAllNodes h fuel subGraphBody
  let refreshNodes := (varyingNodes h x nodes).foldl NodeStack.push {}
  let s ← BodyRefresh.refresh h ρ turns { shapes, refreshNodes }
  return (.success, s.shapes)

end Metadef
