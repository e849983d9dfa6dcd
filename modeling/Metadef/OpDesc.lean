import Metadef.Lib.Positions
import Metadef.Lib.Run

/-!
# Operator descriptors

The descriptor of an operator: the message it is stored in, its input and output tensor descriptors with the names that
lead to them, and the names of the subgraphs it runs. The functions are those of `op_desc.cc` and `op_desc_utils.cc`.
-/

namespace Metadef

/-! ## Data -/

/-- A tensor descriptor: what its validity is read from, and a number for the rest of what it holds. -/
structure GeTensorDesc where
  dataTypeUndefined : Bool := false
  formatReserved : Bool := false
  content : Nat := 0
  deriving DecidableEq, Repr

/-- A descriptor is invalid when it has neither a data type nor a format. -/
def GeTensorDesc.isValid (d : GeTensorDesc) : Bool := !(d.dataTypeUndefined && d.formatReserved)

/-- The message a descriptor is stored in. -/
structure OpDef where
  name : String := ""
  type : String := ""
  id : Int := 0
  /-- The links into the operator, each written as the name and index of its source. -/
  input : List String := []
  inputDesc : List GeTensorDesc := []
  outputDesc : List GeTensorDesc := []
  isInputConst : List Bool := []
  subgraphName : List String := []
  /-- The attributes the names of inputs and outputs travel in. -/
  inputNameKey : Option (List String) := none
  inputNameValue : Option (List Nat) := none
  outputNameKey : Option (List String) := none
  outputNameValue : Option (List Nat) := none
  optInput : Option (List String) := none
  /-- The attribute of the other names the operator goes by. -/
  aliasName : List String := []
  deriving DecidableEq, Repr

/-- A descriptor. -/
structure OpDesc where
  opDef : OpDef := {}
  subgraphInstanceNames : List String := []
  /-- The position of the slot each subgraph name was given. -/
  subgraphNamesToIndex : OrderedMap String Nat := []
  inputsDesc : List GeTensorDesc := []
  inputNameIdx : OrderedMap String Nat := []
  outputsDesc : List GeTensorDesc := []
  outputNameIdx : OrderedMap String Nat := []
  optionalInputNames : OrderedMap String Unit := []
  deriving DecidableEq, Repr

namespace OpDesc

/-- A new descriptor of a name and a type. -/
def make (name type : String) : OpDesc := { opDef := { name, type } }

def getName (op : OpDesc) : String := op.opDef.name

def getType (op : OpDesc) : String := op.opDef.type

def getId (op : OpDesc) : Int := op.opDef.id

def setId (op : OpDesc) (id : Int) : OpDesc := { op with opDef := { op.opDef with id } }

/-! ## Tensor descriptors -/

/-- The number of the valid input descriptors. -/
def getInputsSize (op : OpDesc) : Nat := op.inputsDesc.countP GeTensorDesc.isValid

def getAllInputsSize (op : OpDesc) : Nat := op.inputsDesc.length

def getOutputsSize (op : OpDesc) : Nat := op.outputsDesc.length

/-- The input descriptor at an index, the default one past the end. -/
def getInputDesc (op : OpDesc) (index : Nat) : GeTensorDesc := op.inputsDesc.getD index {}

/-- The output descriptor at an index, the default one past the end. -/
def getOutputDesc (op : OpDesc) (index : Nat) : GeTensorDesc := op.outputsDesc.getD index {}

/-- The index an input name leads to, minus one when the name is unknown. -/
def getInputIndexByName (op : OpDesc) (name : String) : Int :=
  match op.inputNameIdx.find name with
  | none => -1
  | some i => i

/-- The output descriptor of a name, the default one when the name leads to none. -/
def getOutputDescNamed (op : OpDesc) (name : String) : GeTensorDesc :=
  match op.outputNameIdx.find name with
  | none => {}
  | some i => op.getOutputDesc i

/-- The first output name that leads to an index, empty when there is none. -/
def getOutputNameByIndex (op : OpDesc) (index : Nat) : String :=
  match op.outputNameIdx.find? fun e => e.2 = index with
  | none => ""
  | some e => e.1

/-- Replaces the input descriptor at an index. -/
def updateInputDescAt (op : OpDesc) (index : Nat) (desc : GeTensorDesc) : Bool × OpDesc :=
  if index < op.inputsDesc.length then (true, { op with inputsDesc := op.inputsDesc.set index desc }) else (false, op)

/-- Replaces the input descriptor of a name. -/
def updateInputDesc (op : OpDesc) (name : String) (desc : GeTensorDesc) : Bool × OpDesc :=
  match op.inputNameIdx.find name with
  | none => (false, op)
  | some i => op.updateInputDescAt i desc

/-- Adds an input descriptor under a name, or updates the one that has the name. -/
def addInputDescNamed (op : OpDesc) (name : String) (desc : GeTensorDesc) : Bool × OpDesc :=
  if op.inputNameIdx.contains name then op.updateInputDesc name desc
  else (true, { op with inputsDesc := op.inputsDesc ++ [desc]
                        inputNameIdx := op.inputNameIdx.insert name op.inputsDesc.length })

/-- Adds an input descriptor under a name made from its position. -/
def addInputDesc (op : OpDesc) (desc : GeTensorDesc) : Bool × OpDesc :=
  op.addInputDescNamed ("__input" ++ toString op.inputsDesc.length) desc

/-- Updates the input descriptor at an index, or adds one when there is none there. -/
def addInputDescAt (op : OpDesc) (index : Nat) (desc : GeTensorDesc) : Bool × OpDesc :=
  if index < op.inputsDesc.length then op.updateInputDescAt index desc else op.addInputDesc desc

/-- Adds an output descriptor under a new name. -/
def addOutputDescNamed (op : OpDesc) (name : String) (desc : GeTensorDesc) : Bool × OpDesc :=
  if op.outputNameIdx.contains name then (false, op)
  else (true, { op with outputsDesc := op.outputsDesc ++ [desc]
                        outputNameIdx := op.outputNameIdx.insert name op.outputsDesc.length })

/-- Adds an output descriptor under a name made from its position. -/
def addOutputDesc (op : OpDesc) (desc : GeTensorDesc) : Bool × OpDesc :=
  op.addOutputDescNamed ("__output" ++ toString op.outputsDesc.length) desc

/-- Adds an input descriptor under a name, and enters the name among those of the optional inputs. -/
def addOptionalInputDesc (op : OpDesc) (name : String) (desc : GeTensorDesc) : Bool × OpDesc :=
  match op.addInputDescNamed name desc with
  | (false, op) => (false, op)
  | (true, op) => (true, { op with optionalInputNames := op.optionalInputNames.insert name () })

/-- Replaces the output descriptor at an index. -/
def updateOutputDescAt (op : OpDesc) (index : Nat) (desc : GeTensorDesc) : Bool × OpDesc :=
  if index < op.outputsDesc.length then (true, { op with outputsDesc := op.outputsDesc.set index desc }) else (false, op)

/-- Replaces the output descriptor of a name. -/
def updateOutputDesc (op : OpDesc) (name : String) (desc : GeTensorDesc) : Bool × OpDesc :=
  match op.outputNameIdx.find name with
  | none => (false, op)
  | some i => op.updateOutputDescAt i desc

/-! ## Descriptors in the middle -/

/-- The loop over `0, 1, …` that stops at the first step that fails. -/
def eachIndex (f : Nat → OpDesc → Bool × OpDesc) : List Nat → OpDesc → Bool × OpDesc
  | [], op => (true, op)
  | i :: l, op =>
    match f i op with
    | (false, op) => (false, op)
    | (true, op) => eachIndex f l op

/-- The names after a new one was put at a position: the indices from there on grow by one. -/
def insertName (names : OrderedMap String Nat) (position : Nat) (name : String) : OrderedMap String Nat :=
  (Positions.shiftFrom names position).insert name position

/-- Adds descriptors from a position on, under the name with their numbers. -/
def addInputDescMiddle (op : OpDesc) (name : String) (num index : Nat) : Bool × OpDesc :=
  eachIndex (fun i op =>
    let inputName := name ++ toString i
    if op.inputNameIdx.contains inputName then (false, op)
    else if op.inputsDesc.length < index then (false, op)
    else (true, { op with inputsDesc := op.inputsDesc.insertIdx (index + i) {}
                          inputNameIdx := insertName op.inputNameIdx (index + i) inputName })) (List.range num) op

def addOutputDescMiddle (op : OpDesc) (name : String) (num index : Nat) : Bool × OpDesc :=
  eachIndex (fun i op =>
    let outputName := name ++ toString i
    if op.outputNameIdx.contains outputName then (false, op)
    else if op.outputsDesc.length < index then (false, op)
    else (true, { op with outputsDesc := op.outputsDesc.insertIdx (index + i) {}
                          outputNameIdx := insertName op.outputNameIdx (index + i) outputName })) (List.range num) op

/-- Adds descriptors one after the other at the front, under the name with their numbers. -/
def addInputDescForward (op : OpDesc) (name : String) (num : Nat) : Bool × OpDesc :=
  eachIndex (fun i op =>
    let inputName := name ++ toString i
    if op.inputNameIdx.contains inputName then (false, op)
    else (true, { op with inputsDesc := {} :: op.inputsDesc
                          inputNameIdx := insertName op.inputNameIdx 0 inputName })) (List.range num) op

def addOutputDescForward (op : OpDesc) (name : String) (num : Nat) : Bool × OpDesc :=
  eachIndex (fun i op =>
    let outputName := name ++ toString i
    if op.outputNameIdx.contains outputName then (false, op)
    else (true, { op with outputsDesc := {} :: op.outputsDesc
                          outputNameIdx := insertName op.outputNameIdx 0 outputName })) (List.range num) op

/-- Adds descriptors under the name with their numbers, at the end or at the front. -/
def addDynamicInputDesc (op : OpDesc) (name : String) (num : Nat) (isPushBack : Bool) : Bool × OpDesc :=
  if isPushBack then eachIndex (fun i op => op.addInputDescNamed (name ++ toString i) {}) (List.range num) op
  else op.addInputDescForward name num

def addDynamicOutputDesc (op : OpDesc) (name : String) (num : Nat) (isPushBack : Bool) : Bool × OpDesc :=
  if isPushBack then eachIndex (fun i op => op.addOutputDescNamed (name ++ toString i) {}) (List.range num) op
  else op.addOutputDescForward name num

def addDynamicInputDescByIndex (op : OpDesc) (name : String) (num index : Nat) : Bool × OpDesc :=
  op.addInputDescMiddle name num index

/-! ## Names -/

/-- The names to store for `size` descriptors out of a map of names, when there are as many. -/
def namesFor (size : Nat) (names : OrderedMap String Nat) : Option (OrderedMap String Nat) :=
  if size < names.length then
    let kept := names.filter fun e => e.2 < size
    if kept.length = size then some kept else none
  else if size = names.length then some names
  else none

/-- Replaces the input names by as many as there are inputs. -/
def updateInputName (op : OpDesc) (names : OrderedMap String Nat) : Bool × OpDesc :=
  match namesFor op.inputsDesc.length names with
  | some kept => (true, { op with inputNameIdx := kept })
  | none => (false, op)

/-- Replaces the output names by as many as there are outputs. -/
def updateOutputName (op : OpDesc) (names : OrderedMap String Nat) : Bool × OpDesc :=
  match namesFor op.outputsDesc.length names with
  | some kept => (true, { op with outputNameIdx := kept })
  | none => (false, op)

/-- `resize`: cuts a list or fills it up. -/
def resize {α : Type} (l : List α) (n : Nat) (fill : α) : List α := l.take n ++ List.replicate (n - l.length) fill

/-- Writes the constant flag of an input, filling up the flags before it. -/
def setInputConst (op : OpDesc) (index : Nat) (isConst : Bool) : OpDesc :=
  let flags := op.opDef.isInputConst ++ List.replicate (index + 1 - op.opDef.isInputConst.length) false
  { op with opDef := { op.opDef with isInputConst := flags.set index isConst } }

/-- Cuts or fills up the constant flags of the inputs. -/
def resizeIsInputConst (op : OpDesc) (num : Nat) : OpDesc :=
  { op with opDef := { op.opDef with isInputConst := resize op.opDef.isInputConst num false } }

/-! ## Subgraph names -/

/-- Gives a new subgraph name the next slot, with an empty instance name in it. -/
def addSubgraphName (op : OpDesc) (name : String) : Bool × OpDesc :=
  if op.subgraphNamesToIndex.contains name then (false, op)
  else
    let size := op.subgraphNamesToIndex.length
    (true, { op with subgraphNamesToIndex := op.subgraphNamesToIndex.assign name size
                     subgraphInstanceNames := resize op.subgraphInstanceNames (size + 1) "" })

/-- Writes an instance name into a slot that exists. -/
def setSubgraphInstanceName (op : OpDesc) (index : Nat) (name : String) : Bool × OpDesc :=
  if op.subgraphInstanceNames.length ≤ index then (false, op)
  else (true, { op with subgraphInstanceNames := op.subgraphInstanceNames.set index name })

/-- Empties the first slot that holds an instance name. -/
def removeSubgraphInstanceName (op : OpDesc) (name : String) : OpDesc :=
  match op.subgraphInstanceNames.findIdx? (· = name) with
  | none => op
  | some i => { op with subgraphInstanceNames := op.subgraphInstanceNames.set i "" }

end OpDesc

namespace OpDescUtils

/-- Erases the input descriptor at an index; its names stay. -/
def clearInputDesc (op : OpDesc) (index : Nat) : Bool × OpDesc :=
  if index < op.inputsDesc.length then (true, { op with inputsDesc := op.inputsDesc.eraseIdx index }) else (false, op)

/-- Erases the output descriptor at an index; its names stay. -/
def clearOutputDesc (op : OpDesc) (index : Nat) : Bool × OpDesc :=
  if index < op.outputsDesc.length then (true, { op with outputsDesc := op.outputsDesc.eraseIdx index }) else (false, op)

/-- The erasures of `ClearInputDesc` of a node, in order, at the indices of its inputs without a peer: each where the
descriptors left have that index. -/
def clearInputDescs (op : OpDesc) (indexList : List Nat) : OpDesc :=
  { op with inputsDesc := (indexList.mergeSort (· ≤ ·)).foldl (fun l i => l.eraseIdx i) op.inputsDesc }

/-- The erasures of `ClearOutputDesc` of a node, at the indices of its outputs without a data input. -/
def clearOutputDescs (op : OpDesc) (indexList : List Nat) : OpDesc :=
  { op with outputsDesc := (indexList.mergeSort (· ≤ ·)).foldl (fun l i => l.eraseIdx i) op.outputsDesc }

end OpDescUtils

/-!
## Calls on the tensor descriptors

The machine that runs the calls which add, replace, name and clear the tensor descriptors of an operator.
-/

/-- The map a caller hands over: each name leads to one index. -/
abbrev NameMap := { names : OrderedMap String Nat // (names.map Prod.fst).Nodup }

/-- A call. `ClearInputDesc` and `ClearOutputDesc` of a node are given by the indices of its anchors without a peer. -/
inductive DescCall where
  | addInputDesc (desc : GeTensorDesc)
  | addInputDescAt (index : Nat) (desc : GeTensorDesc)
  | addInputDescNamed (name : String) (desc : GeTensorDesc)
  | addInputDescMiddle (name : String) (num index : Nat)
  | addInputDescForward (name : String) (num : Nat)
  | addOptionalInputDesc (name : String) (desc : GeTensorDesc)
  | addDynamicInputDesc (name : String) (num : Nat) (isPushBack : Bool)
  | addDynamicInputDescByIndex (name : String) (num index : Nat)
  | updateInputDescAt (index : Nat) (desc : GeTensorDesc)
  | updateInputDesc (name : String) (desc : GeTensorDesc)
  | updateInputName (names : NameMap)
  | clearInputDesc (index : Nat)
  | clearInputDescs (indexList : List Nat)
  | addOutputDesc (desc : GeTensorDesc)
  | addOutputDescNamed (name : String) (desc : GeTensorDesc)
  | addOutputDescMiddle (name : String) (num index : Nat)
  | addOutputDescForward (name : String) (num : Nat)
  | addDynamicOutputDesc (name : String) (num : Nat) (isPushBack : Bool)
  | updateOutputDescAt (index : Nat) (desc : GeTensorDesc)
  | updateOutputDesc (name : String) (desc : GeTensorDesc)
  | updateOutputName (names : NameMap)
  | clearOutputDesc (index : Nat)
  | clearOutputDescs (indexList : List Nat)
  deriving DecidableEq

namespace DescCall

/-- Whether a call succeeds, and the descriptor it leaves. -/
def run : DescCall → OpDesc → Bool × OpDesc
  | addInputDesc desc, op => op.addInputDesc desc
  | addInputDescAt index desc, op => op.addInputDescAt index desc
  | addInputDescNamed name desc, op => op.addInputDescNamed name desc
  | addInputDescMiddle name num index, op => op.addInputDescMiddle name num index
  | addInputDescForward name num, op => op.addInputDescForward name num
  | addOptionalInputDesc name desc, op => op.addOptionalInputDesc name desc
  | addDynamicInputDesc name num isPushBack, op => op.addDynamicInputDesc name num isPushBack
  | addDynamicInputDescByIndex name num index, op => op.addDynamicInputDescByIndex name num index
  | updateInputDescAt index desc, op => op.updateInputDescAt index desc
  | updateInputDesc name desc, op => op.updateInputDesc name desc
  | updateInputName names, op => op.updateInputName names
  | clearInputDesc index, op => OpDescUtils.clearInputDesc op index
  | clearInputDescs indexList, op => (true, OpDescUtils.clearInputDescs op indexList)
  | addOutputDesc desc, op => op.addOutputDesc desc
  | addOutputDescNamed name desc, op => op.addOutputDescNamed name desc
  | addOutputDescMiddle name num index, op => op.addOutputDescMiddle name num index
  | addOutputDescForward name num, op => op.addOutputDescForward name num
  | addDynamicOutputDesc name num isPushBack, op => op.addDynamicOutputDesc name num isPushBack
  | updateOutputDescAt index desc, op => op.updateOutputDescAt index desc
  | updateOutputDesc name desc, op => op.updateOutputDesc name desc
  | updateOutputName names, op => op.updateOutputName names
  | clearOutputDesc index, op => OpDescUtils.clearOutputDesc op index
  | clearOutputDescs indexList, op => (true, OpDescUtils.clearOutputDescs op indexList)

/-- One step of the machine. -/
def step (op : OpDesc) (c : DescCall) : Option OpDesc := some (c.run op).2

end DescCall

end Metadef
