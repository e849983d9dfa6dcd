import Metadef.OpDescUtils
import Metadef.Linking

/-!
# Weights

The functions of `op_desc_utils.cc` that read and set the weights of a node: its own when it is a constant, else those of the
constants that feed it. Where an input has none, a new constant is made and linked to it.
-/

namespace Metadef

/-! ## Data -/

/-- A tensor: its description and its bytes. A tensor that is set is copied. -/
structure Tensor where
  tensorDesc : GeTensorDesc := {}
  tensorData : List UInt8 := []
  deriving DecidableEq, Repr

/-- The attribute `value` of a descriptor: not there, a tensor, or of another type. -/
inductive WeightAttr where
  | unset
  | tensor (t : Tensor)
  | other
  deriving DecidableEq, Repr

/-- The objects, the weight of each descriptor, and how many constants were made. -/
structure WeightHeap where
  heap : Heap
  weight : OpId → WeightAttr := fun _ => .unset
  constCount : Nat := 0

/-- What is kept of nodes for their weights: the attribute `parentOpType` and the parent node of a place holder. -/
structure WeightMarks extends InputMarks where
  parentOpType : OpId → String := fun _ => ""
  parentNode : OpId → Option NodeId := fun _ => none

/-- A command on the objects. -/
def WeightHeap.onHeap {α : Type} (c : Cmd Heap α) : Cmd WeightHeap α :=
    fun s => (c s.heap).map fun r => (r.1, { s with heap := r.2 })

namespace OpDescUtils

/-! ## Descriptors -/

/-- `MutableWeights` of a descriptor. -/
def mutableWeightsOf (s : WeightHeap) (op : OpId) : Option Tensor :=
  match s.weight op with
  | .tensor t => some t
  | _ => none

/-- `SetWeights` of a descriptor. An attribute of another type is not replaced. -/
def setWeightsOf (op : OpId) (weight : Option Tensor) : Cmd WeightHeap Bool := do
  let some weight := weight | return false
  let s ← get
  if s.weight op = .other then return false
  set { s with weight := Function.update s.weight op (.tensor weight) }
  return true

/-- `CreateConstOp`. The name has the number of the thread and how many constants it made. -/
def createConstOp (tid : Nat) (tensor : Option Tensor) : Cmd WeightHeap (Option OpId) := do
  let some tensor := tensor | return none
  let s ← get
  let constOpdesc := s.heap.opCount
  set { s with heap := LinkCall.makeOp {} s.heap, weight := Function.update s.weight constOpdesc .unset }
  if !(← setWeightsOf constOpdesc (some tensor)) then return none
  modify fun t => { t with
    heap := t.heap.setOp constOpdesc
      (((OpDesc.make ("dynamic_const_" ++ toString tid ++ "_" ++ toString t.constCount) "Const").addOutputDesc tensor.tensorDesc).2)
    constCount := t.constCount + 1 }
  return some constOpdesc

/-! ## Reading -/

/-- The descriptor `MutableWeights` of a node looks at: that of the parent for a place holder of a constant. -/
def weightOp (x : WeightMarks) (h : Heap) (node : NodeId) : OpId :=
  if Node.getType h node = "PlaceHolder" ∧
      (x.parentOpType (h.node node).op = "Const" ∨ x.parentOpType (h.node node).op = "Constant") then
    match x.parentNode (h.node node).op with
    | some parentNode => (h.node parentNode).op
    | none => (h.node node).op
  else (h.node node).op

/-- `GetWeights`: the weights that `MutableWeights` finds. -/
def getWeights (x : WeightMarks) (s : WeightHeap) (node : NodeId) : List Tensor :=
  let opDesc := weightOp x s.heap node
  if (s.heap.op opDesc).getType = "Const" ∨ (s.heap.op opDesc).getType = "Constant" then (mutableWeightsOf s opDesc).toList
  else if Node.getType s.heap node = "Data" then
    match NodeUtils.getParentInput x.toInputMarks s.heap node with
    | some parent => if Node.isConst s.heap parent then (mutableWeightsOf s (s.heap.node parent).op).toList else []
    | none => []
  else ((getConstInputs x.toInputMarks s.heap node).mapM fun inputNode => mutableWeightsOf s (s.heap.node inputNode).op).getD []

/-! ## Setting -/

/-- Sets weights of nodes, whatever comes of it. -/
def setWeightsOfNodes : List (NodeId × Tensor) → Cmd WeightHeap Unit :=
  Cmd.each fun e => do
    let s ← get
    setWeightsOf (s.heap.node e.1).op (some e.2)

/-- A constant more of `SetWeights`, at a new input. -/
def addConst (tid : Nat) (node : NodeId) (weight : Tensor) : Cmd WeightHeap Bool := do
  let some constOpdesc ← createConstOp tid (some weight) | return false
  let s ← get
  let some ownerGraph := (s.heap.node node).ownerGraph | return false
  let constNode ← WeightHeap.onHeap (ComputeGraph.addOpNodeFront ownerGraph (some constOpdesc))
  WeightHeap.onHeap (Node.addLinkFrom node constNode)

/-- `SetWeights` of a node and a vector of tensors. -/
def setWeights (x : WeightMarks) (tid : Nat) (node : NodeId) (weights : List Tensor) : Cmd WeightHeap Bool := do
  let s ← get
  if Node.getType s.heap node = "Const" then
    match weights with
    | [weight] => setWeightsOf (s.heap.node node).op (some weight)
    | _ => return false
  else
    let inputNodes := getConstInputs x.toInputMarks s.heap node
    if weights.length < inputNodes.length then return false
    setWeightsOfNodes (inputNodes.zip weights)
    Cmd.eachOk (addConst tid node) (weights.drop inputNodes.length)

/-- One key of `SetWeights` of a map. A node of another type that feeds the input is reported, and its weight set all the same. -/
def setWeightAt (tid : Nat) (node : NodeId) (pair : Int32 × Option Tensor) : Cmd WeightHeap Bool := do
  let s ← get
  match (Node.getInDataAnchor s.heap node pair.1.toInt).bind (InDataAnchor.getPeerOutAnchor s.heap) with
  | some outAnchor =>
    let _ ← setWeightsOf (s.heap.node (s.heap.owner outAnchor)).op pair.2
    return true
  | none =>
    let some constOpdesc ← createConstOp tid pair.2 | return false
    let s ← get
    let some ownerGraph := (s.heap.node node).ownerGraph | return false
    let constNode ← WeightHeap.onHeap (ComputeGraph.addOpNodeFront ownerGraph (some constOpdesc))
    WeightHeap.onHeap (Node.addLinkFromAt node pair.1.toUInt32.toNat constNode)

end OpDescUtils

end Metadef
