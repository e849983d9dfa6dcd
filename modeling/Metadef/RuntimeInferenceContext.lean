import Metadef.Lib.Cmd
import Metadef.Lib.OrderedMap

/-!
# Runtime inference contexts

`RuntimeInferenceContext` of `runtime_inference_context.cc`: the tensors of the outputs of nodes. Each node has a vector of tensors and
one of views of them, which grow to the index that is set. An index is a signed number, compared as an unsigned one.
-/

namespace Metadef

variable {α G : Type}

inductive GetTensorError
  | paramInvalid | internalError | failed
  deriving DecidableEq, Repr

namespace RuntimeInferenceContext

/-- A tensor points to its value, or to nothing where there was no memory for one. -/
structure Tensor (G : Type) where
  impl : Option G
  deriving DecidableEq, Repr

/-- `Tensor()`. -/
instance [Inhabited G] : Inhabited (Tensor G) := ⟨⟨some default⟩⟩

/-- `TensorAdapter::AsGeTensorPtr`: the value is shared. -/
def Tensor.asGeTensorPtr (tensor : Tensor G) : Option G := tensor.impl

/-! ## One table -/

/-- `resize`. No vector has the size a negative number becomes, so it throws. -/
def resize (value : α) (size : Int) (v : List α) : Option (List α) :=
  if size < 0 then none else some (v.take size.toNat ++ List.replicate (size.toNat - v.length) value)

/-- `operator[]` assigned, which has no outcome out of range. -/
def setAt (i : Int) (x : α) (v : List α) : Option (List α) :=
  if 0 ≤ i ∧ i < v.length then some (v.set i.toNat x) else none

/-- The part of `SetTensor` that sets one table. It fails when `resize` throws, and has no outcome when the new size overflows. -/
def setOutput (value : α) (nodeId : Int64) (outputId : Int32) (x : α) : Cmd (OrderedMap Int64 (List α)) Bool := fun m =>
  let v := (m.find nodeId).getD []
  if outputId.toUInt32.toNat ≥ v.length then
    if outputId.toInt + 1 > 2147483647 then none
    else
      match resize value (outputId.toInt + 1) v with
      | none => some (false, m.assign nodeId v)
      | some v => (setAt outputId.toInt x v).map fun v => (true, m.assign nodeId v)
  else (setAt outputId.toInt x v).map fun v => (true, m.assign nodeId v)

/-- The body the overloads of `GetTensor` share. -/
def getOutput (m : OrderedMap Int64 (List α)) (nodeId : Int64) (outputId : Int32) : Except GetTensorError α :=
  if outputId < 0 then .error .paramInvalid
  else
    match m.find nodeId with
    | none => .error .internalError
    | some v =>
      match v[outputId.toUInt32.toNat]? with
      | none => .error .failed
      | some x => .ok x

end RuntimeInferenceContext

/-! ## The context -/

structure RuntimeInferenceContext (G : Type) where
  tensors : OrderedMap Int64 (List (RuntimeInferenceContext.Tensor G)) := []
  geTensors : OrderedMap Int64 (List (Option G)) := []

/-- The arguments of `SetTensor`. -/
structure SetTensorCall (G : Type) where
  nodeId : Int64
  outputId : Int32
  tensor : RuntimeInferenceContext.Tensor G
  deriving DecidableEq, Repr

namespace RuntimeInferenceContext

/-- `SetTensor`. The tensor it is given is copied, as there is no move, and is there for the view. -/
def setTensor [Inhabited G] (c : SetTensorCall G) : Cmd (RuntimeInferenceContext G) Bool := fun s =>
  match setOutput default c.nodeId c.outputId c.tensor s.tensors with
  | none => none
  | some (false, tensors) => some (false, { s with tensors })
  | some (true, tensors) =>
    (setOutput none c.nodeId c.outputId c.tensor.asGeTensorPtr s.geTensors).map fun r => (r.1, { tensors, geTensors := r.2 })

/-- `GetTensor` of a tensor. -/
def getTensor (s : RuntimeInferenceContext G) (nodeId : Int64) (outputId : Int32) : Except GetTensorError (Tensor G) :=
  getOutput s.tensors nodeId outputId

/-- `GetTensor` of a view. -/
def getGeTensor (s : RuntimeInferenceContext G) (nodeId : Int64) (outputId : Int32) : Except GetTensorError (Option G) :=
  getOutput s.geTensors nodeId outputId

/-- The calls of a run that return, and the context after it. -/
def setAll [Inhabited G] :
    List (SetTensorCall G) → RuntimeInferenceContext G → Option (List (SetTensorCall G) × RuntimeInferenceContext G)
  | [], s => some ([], s)
  | c :: calls, s => do
    let (ok, s) ← setTensor c s
    let (accepted, s) ← setAll calls s
    return (if ok then c :: accepted else accepted, s)

end RuntimeInferenceContext

end Metadef
