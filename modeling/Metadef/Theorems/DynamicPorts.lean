import Metadef.AutoMapping
import Metadef.Theorems.DescriptorGroups

/-!
# Dynamic ports

The descriptors of dynamic ports are put among those of the others at indexes that are told ahead, where a port without tensors counts
as one. All get to the places they are registered at where no port without tensors is before one that has some.
-/

namespace Metadef

open List Option OrderedMap DescriptorGroupsAux DescriptorAux

open BlockInserts

variable {M : AttrMessages}

namespace DescSide

/-- The kind of the ports of a side, and its registered names. -/
def type : DescSide → DynamicType
  | input => .input
  | output => .output

def registered : DescSide → MappedOp M → List String
  | input, op => op.registerInputName
  | output, op => op.registerOutputName

end DescSide

namespace MappedOp

/-- The descriptors are numbered by these names, in their order. -/
def Listed (idx : OrderedMap String Nat) (descs : List GeTensorDesc) (names : List String) : Prop :=
  descs.length = names.length ∧ ∀ name i, idx.find name = some i ↔ names[i]? = some name

variable (op : MappedOp M) (ports : List DynamicInputOutputInfo)

end MappedOp

namespace DynamicPortsAux

open MappedOp

/-! ## One block -/

variable {idx : OrderedMap String Nat} {descs : List GeTensorDesc} {names : List String}
  {name : String} {num index : Nat} {s : DescSide} {op : OpDesc} {e : String × DynamicInfo}
  {port : DynamicInfo}

/-- The names of the descriptors that are put in for a port. -/
def numbered (name : String) (num : Nat) : List String := (List.range num).map fun i => name ++ toString i

/-- A block can be put in: there is its position, and its names are new. -/
def Fits (names : List String) (b : Nat × List String) : Prop := b.1 ≤ names.length ∧ ∀ x ∈ b.2, x ∉ names

/-- A port of a side that has tensors. -/
def ofSide (s : DescSide) (e : String × DynamicInfo) : Bool := e.2.type = s.type && 0 < e.2.tensorNum

/-- What is put in for a port, and where. -/
def blockOf (e : String × DynamicInfo) : Nat × List String := (e.2.insetIndex, numbered e.1 e.2.tensorNum)

/-- The blocks of a side among the ports. -/
def blocks (s : DescSide) (entries : List (String × DynamicInfo)) : List (Nat × List String) :=
  (entries.filter (ofSide s)).map blockOf

variable {op : MappedOp M} {ports : List DynamicInputOutputInfo}

/-- The sum of what the names before a port count for. -/
def offset (num : String → Nat) (names : List String) : Nat := (names.map fun name => max 1 (num name)).sum

end DynamicPortsAux

open DynamicPortsAux

namespace DynamicPortsWitness

/-- A sort that leaves ports of one index as they are. -/
def sort : MappedOp.PortSort := UnstableSort.ranked (fun _ _ => true) (fun _ _ _ _ _ => rfl) fun _ _ => rfl

/-- An operator with a static last input, and an attribute for the number of another. -/
def concat (names : List String) : MappedOp .trivial :=
  { registerInputName := names, inputsDesc := [{}], inputNameIdx := [("axis", 0)], attrs := [("M", .one .i (1 : Int64))] }

def first : DynamicInputOutputInfo := ⟨.input, "first", 5, "N", 1⟩

def second : DynamicInputOutputInfo := ⟨.input, "second", 6, "M", 1⟩

end DynamicPortsWitness

end Metadef
