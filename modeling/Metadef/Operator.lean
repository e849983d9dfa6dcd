import Metadef.Heap

/-!
# Operators

The front-end objects of `operator.cc` and the links among them. An operator holds the source of each of its inputs and, by
output, the inputs it feeds; the two sides of a link lie in two objects.
-/

namespace Metadef

/-- The pointers to operators. -/
abbrev ImplId := Nat

/-! ## Data -/

/-- A named input or output of an operator. -/
structure OpIO where
  name : String
  index : Int
  owner : Option ImplId
  deriving DecidableEq, Repr

/-- An operator. -/
structure OperatorImpl where
  opDesc : Option OpId := none
  inputLink : OrderedMap String OpIO := []
  outputLinks : OrderedMap String (List OpIO) := []
  controlInputLink : List ImplId := []
  controlOutputLink : List ImplId := []
  deriving DecidableEq, Repr

/-- The operators and the descriptors they share. -/
structure Operators where
  op : OpId → OpDesc := fun _ => {}
  impl : ImplId → OperatorImpl := fun _ => {}

namespace Operators

variable (s : Operators)

/-- Writes a descriptor. -/
def setOp (o : OpId) (x : OpDesc) : Operators := { s with op := Function.update s.op o x }

/-- Writes an operator. -/
def setImpl (i : ImplId) (x : OperatorImpl) : Operators := { s with impl := Function.update s.impl i x }

@[simp] theorem setOp_impl (o : OpId) (x : OpDesc) : (s.setOp o x).impl = s.impl := rfl

@[simp] theorem setOp_op (o : OpId) (x : OpDesc) : (s.setOp o x).op = Function.update s.op o x := rfl

@[simp] theorem setImpl_impl (i : ImplId) (x : OperatorImpl) : (s.setImpl i x).impl = Function.update s.impl i x := rfl

/-- Enters the source of an input; one that is there stays. -/
def insertInputLink (this : ImplId) (dstName : String) (outHandler : OpIO) : Operators :=
  s.setImpl this { s.impl this with inputLink := (s.impl this).inputLink.insert dstName outHandler }

/-- `UpdateLinkMapImpl`: adds an input to those an output feeds. -/
def updateLinkMapImpl (this : ImplId) (srcName : String) (opDst : OpIO) : Operators :=
  match (s.impl this).outputLinks.find srcName with
  | none => s.setImpl this { s.impl this with outputLinks := (s.impl this).outputLinks.insert srcName [opDst] }
  | some dsts => s.setImpl this { s.impl this with outputLinks := (s.impl this).outputLinks.assign srcName (dsts ++ [opDst]) }

end Operators

namespace OperatorImpl

/-- The part the two overloads of `SetInputImpl` share: notes whether the source is a constant, enters the input at the source,
and gives the input the descriptor of the output, in the format it has or else in the default one. -/
def linkInput (this : ImplId) (dst : OpId) (dstName : String) (dstIndex : Int) (src : ImplId) (srcDesc : OpId)
    (srcName : String) : Cmd Operators Bool := do
  modify fun s => s.setOp dst ((s.op dst).setInputConst dstIndex.toNat ((s.op srcDesc).getType = "Const"))
  modify (·.updateLinkMapImpl src srcName { name := dstName, index := dstIndex, owner := some this })
  let s ← get
  let outputDesc := { (s.op srcDesc).getOutputDescNamed srcName with formatReserved := false }
  let r := (s.op dst).updateInputDesc dstName outputDesc
  set (s.setOp dst r.2)
  return r.1

/-- `SetInputImpl` of an operator with one output. -/
def setInputImpl (this : ImplId) (dstName : String) (srcOprt : Option ImplId) : Cmd Operators Bool := do
  if dstName = "" then return false
  let s ← get
  let some dst := (s.impl this).opDesc | return false
  let some src := srcOprt | return false
  let some srcDesc := (s.impl src).opDesc | return false
  if (s.op srcDesc).getOutputsSize ≠ 1 then return false
  let srcName := (s.op srcDesc).getOutputNameByIndex 0
  if srcName = "" then return false
  modify (·.insertInputLink this dstName { name := srcName, index := 0, owner := some src })
  let dstIndex := (s.op dst).getInputIndexByName dstName
  if dstIndex < 0 then return false
  linkInput this dst dstName dstIndex src srcDesc srcName

/-- `SetInputImpl` of an output. -/
def setInputImplHandler (this : ImplId) (dstName : String) (outHandler : Option OpIO) : Cmd Operators Bool := do
  if dstName = "" then return false
  let some outHandler := outHandler | return false
  let s ← get
  let some dst := (s.impl this).opDesc | return false
  modify (·.insertInputLink this dstName outHandler)
  let dstIndex := (s.op dst).getInputIndexByName dstName
  if dstIndex < 0 then return false
  let some src := outHandler.owner | return false
  let some srcDesc := (s.impl src).opDesc | return false
  linkInput this dst dstName dstIndex src srcDesc outHandler.name

/-- `AddControlInputImp`: a source that is there is left alone. -/
def addControlInputImp (this : ImplId) (srcOprt : Option ImplId) : Cmd Operators Bool := do
  let some src := srcOprt | return false
  let s ← get
  if (s.impl this).controlInputLink.contains src then return true
  modify fun s => s.setImpl this { s.impl this with controlInputLink := (s.impl this).controlInputLink ++ [src] }
  modify fun s => s.setImpl src { s.impl src with controlOutputLink := (s.impl src).controlOutputLink ++ [this] }
  return true

end OperatorImpl

/-- A call that links operators. -/
inductive OperatorCall where
  | setInput (this : ImplId) (dstName : String) (srcOprt : Option ImplId)
  | setInputHandler (this : ImplId) (dstName : String) (outHandler : Option OpIO)
  | addControlInput (this : ImplId) (srcOprt : Option ImplId)
  deriving DecidableEq

/-- Whether a call is accepted, and the operators it leaves. -/
def OperatorCall.run : OperatorCall → Cmd Operators Bool
  | setInput this dstName srcOprt => OperatorImpl.setInputImpl this dstName srcOprt
  | setInputHandler this dstName outHandler => OperatorImpl.setInputImplHandler this dstName outHandler
  | addControlInput this srcOprt => OperatorImpl.addControlInputImp this srcOprt

/-!
## The front end over the objects of graphs

Operators share their descriptors with the nodes of graphs. The state of the front end is the heap of these objects and the
operators over it; commands on either part are commands on both.
-/

/-- The functions that build the subgraphs of an operator. -/
abbrev BuilderId := Nat

/-- An operator with its node and the builders of its subgraphs. -/
structure OperatorMembers extends OperatorImpl where
  /-- The node of a graph an operator was made from. -/
  node : Option NodeId := none
  subgraphNamesToBuilders : OrderedMap String (Option BuilderId) := []
  deriving DecidableEq, Repr

/-- The objects of graphs and the operators, with how many operators were made. -/
structure FrontEnd where
  heap : Heap := {}
  implCount : Nat := 0
  impl : ImplId → OperatorMembers := fun _ => {}

namespace FrontEnd

variable (s : FrontEnd)

/-- The operators with their descriptors. -/
def operators : Operators := { op := s.heap.op, impl := fun i => (s.impl i).toOperatorImpl }

/-- Writes the operators with their descriptors. -/
def withOperators (o : Operators) : FrontEnd :=
  { s with heap := { s.heap with op := o.op }, impl := fun i => { s.impl i with toOperatorImpl := o.impl i } }

/-- A command on the objects of graphs. -/
def onHeap {α : Type} (c : Cmd Heap α) : Cmd FrontEnd α := fun s => (c s.heap).map fun r => (r.1, { s with heap := r.2 })

/-- A command on the operators and their descriptors. -/
def onOperators {α : Type} (c : Cmd Operators α) : Cmd FrontEnd α :=
  fun s => (c s.operators).map fun r => (r.1, s.withOperators r.2)

/-- Enters a new operator. -/
def addImpl (x : OperatorMembers) : FrontEnd :=
  { s with implCount := s.implCount + 1, impl := Function.update s.impl s.implCount x }

@[simp] theorem addImpl_impl (x : OperatorMembers) (i : ImplId) :
    (s.addImpl x).impl i = if i = s.implCount then x else s.impl i := Function.update_apply ..

/-- A new operator. -/
def makeImpl (x : OperatorMembers) : Cmd FrontEnd ImplId := do
  let s ← get
  set (s.addImpl x)
  return s.implCount

end FrontEnd

end Metadef
