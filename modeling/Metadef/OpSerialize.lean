import Mathlib.Algebra.GroupWithZero.Nat
import Metadef.OpDesc

/-!
# Writing and reading one operator

The operator part of `model_serialize.cc`: a descriptor is written over a copy of the message it is stored in, and read
back into a new descriptor stored in the message that was read.
-/

namespace Metadef

/-- The most items a repeated field of a message holds: its size is a signed 32-bit integer. -/
def repeatedFieldMax : Nat := 2 ^ 31 - 1

namespace ModelSerializeImp

/-- `insert` on the attributes: one that is there stays. -/
def insertAttr {α : Type} (old : Option α) (new : α) : Option α := some (old.getD new)

/-- Writes the input, output and optional names as attributes, each kind when there is some. -/
def opDescToAttrDef (op : OpDesc) (d : OpDef) : OpDef :=
  let d := if op.inputNameIdx.isEmpty then d else
    { d with inputNameKey := insertAttr d.inputNameKey (op.inputNameIdx.map Prod.fst)
             inputNameValue := insertAttr d.inputNameValue (op.inputNameIdx.map Prod.snd) }
  let d := if op.outputNameIdx.isEmpty then d else
    { d with outputNameKey := insertAttr d.outputNameKey (op.outputNameIdx.map Prod.fst)
             outputNameValue := insertAttr d.outputNameValue (op.outputNameIdx.map Prod.snd) }
  if op.optionalInputNames.isEmpty then d else { d with optInput := insertAttr d.optInput (op.optionalInputNames.map Prod.fst) }

/-- Writes a descriptor. The tensor descriptors are written anew and the instance names are added to the names the
message holds, which must then fit the field. -/
def serializeOpDesc (op : OpDesc) : Option OpDef :=
  let names := op.opDef.subgraphName ++ op.subgraphInstanceNames
  if repeatedFieldMax < names.length then none
  else some (opDescToAttrDef op
    { op.opDef with inputDesc := op.inputsDesc, outputDesc := op.outputsDesc, id := op.getId, subgraphName := names })

/-- Enters the names and values read, when there are as many of both. -/
def insertNames (m : OrderedMap String Nat) (keys : List String) (values : List Nat) : OrderedMap String Nat :=
  if keys.length = values.length then (keys.zip values).foldl (fun m e => m.insert e.1 e.2) m else m

/-- Enters the names the attributes held. -/
def attrDefToOpDesc (op : OpDesc) (d : OpDef) : OpDesc :=
  { op with
    inputNameIdx := insertNames op.inputNameIdx (d.inputNameKey.getD []) (d.inputNameValue.getD [])
    outputNameIdx := insertNames op.outputNameIdx (d.outputNameKey.getD []) (d.outputNameValue.getD [])
    optionalInputNames := (d.optInput.getD []).foldl (fun m n => m.insert n ()) op.optionalInputNames }

/-- The loop over the subgraph names read: each asks for a slot and is written to the slot of its position, the
position a 32-bit counter and both outcomes ignored. -/
def addSubgraphNames : List String → Nat → OpDesc → OpDesc
  | [], _, op => op
  | name :: names, graphIndex, op =>
    addSubgraphNames names ((graphIndex + 1) % 2 ^ 32) ((op.addSubgraphName name).2.setSubgraphInstanceName graphIndex name).2

/-- Reads a descriptor. The attributes of the names are erased from the message it stays stored in. -/
def unserializeOpDesc (d : OpDef) : OpDesc :=
  let stored := { d with inputNameKey := none, inputNameValue := none, outputNameKey := none, outputNameValue := none
                         optInput := none }
  attrDefToOpDesc (addSubgraphNames d.subgraphName 0
    { opDef := stored, inputsDesc := d.inputDesc, outputsDesc := d.outputDesc }) d

end ModelSerializeImp

/-! ## Editing, saving and loading -/

/-- A step of the history of a descriptor's subgraph names. -/
inductive SubgraphNameEdit where
  | addSubgraphName (name : String)
  | setSubgraphInstanceName (index : Nat) (name : String)
  | removeSubgraphInstanceName (name : String)
  /-- The descriptor is saved and loaded. -/
  | reload
  deriving DecidableEq, Repr

/-- The descriptor after a step. -/
def OpDesc.edit (op : OpDesc) : SubgraphNameEdit → Option OpDesc
  | .addSubgraphName name => some (op.addSubgraphName name).2
  | .setSubgraphInstanceName index name => some (op.setSubgraphInstanceName index name).2
  | .removeSubgraphInstanceName name => some (op.removeSubgraphInstanceName name)
  | .reload => (ModelSerializeImp.serializeOpDesc op).map ModelSerializeImp.unserializeOpDesc

/-!
## Copying a descriptor

`AttrUtils::CopyOpDesc` of `ge_attr_value.cc`. The descriptor is written and read back, and some of its members are then
copied over what was read. The members that neither the names, the tensor descriptors nor the message hold come here.
-/

/-- How many subgraphs a subgraph name of the IR stands for. -/
inductive SubgraphType where
  | static
  | dynamic
  deriving DecidableEq, Repr

/-- A descriptor with all its members: `α` are the values of the attributes, `ε` those of the extended attributes, which
no message holds, and `φ` the functions an operator is given. -/
structure OpDescMembers (α ε φ : Type) extends OpDesc where
  /-- The attributes, but for those the message names by itself. -/
  attrs : OrderedMap String α := []
  extAttrs : OrderedMap String ε := []
  subgraphIrNamesToType : OrderedMap String SubgraphType := []
  registerInputName : List String := []
  registerOutputName : List String := []
  inferFunc : Option φ := none
  inferFormatFunc : Option φ := none
  verifierFunc : Option φ := none
  /-- Looked up by the type of the operator at the first call, and kept. -/
  inferDataSliceFunc : Option φ := none
  opKernelLibName : String := ""
  engineName : String := ""
  deriving DecidableEq, Repr

namespace OpDescMembers

variable {α ε φ : Type}

def registerSubgraphIrName (op : OpDescMembers α ε φ) (name : String) (type : SubgraphType) : OpDescMembers α ε φ :=
  { op with subgraphIrNamesToType := op.subgraphIrNamesToType.assign name type }

def addRegisterInputName (op : OpDescMembers α ε φ) (name : String) : OpDescMembers α ε φ :=
  if name ∈ op.registerInputName then op else { op with registerInputName := op.registerInputName ++ [name] }

def addRegisterOutputName (op : OpDescMembers α ε φ) (name : String) : OpDescMembers α ε φ :=
  if name ∈ op.registerOutputName then op else { op with registerOutputName := op.registerOutputName ++ [name] }

end OpDescMembers

namespace AttrUtils

open ModelSerializeImp

/-- `insert` of a range: the entries whose keys are new. -/
def insertRange {ν : Type} (m l : OrderedMap String ν) : OrderedMap String ν := l.foldl (fun m e => m.insert e.1 e.2) m

/-- The descriptor read back, with the names of the original entered. -/
def copyNames (op : OpDesc) : Option OpDesc :=
  (serializeOpDesc op).map fun d =>
    let copy := unserializeOpDesc d
    { copy with
      inputNameIdx := insertRange copy.inputNameIdx op.inputNameIdx
      optionalInputNames := insertRange copy.optionalInputNames op.optionalInputNames
      outputNameIdx := insertRange copy.outputNameIdx op.outputNameIdx }

/-- Copies a descriptor. The attributes are copied with the message; the members that are not written here are those of
a new descriptor. -/
def copyOpDesc {α ε φ : Type} (op : OpDescMembers α ε φ) : Option (OpDescMembers α ε φ) :=
  (copyNames op.toOpDesc).map fun copy =>
    { toOpDesc := copy
      attrs := op.attrs
      extAttrs := op.extAttrs
      inferFunc := op.inferFunc
      inferFormatFunc := op.inferFormatFunc
      verifierFunc := op.verifierFunc }

end AttrUtils

end Metadef
