import Metadef.AttrValue
import Metadef.GraphUtils
import Metadef.Shapes
import Metadef.TensorData

/-!
# Constants of TensorFlow

`TensorAssign` of `tensor_assign.cpp`, which sets a tensor from the message of one of TensorFlow: from its typed values, which are
padded or cut to the number of elements, or else from the bytes of its content. Reading behind the end of either has no outcome.
-/

namespace Metadef

/-! ## Messages -/

/-- The types of TensorFlow. -/
inductive TfType
  | float | double | int32 | uint8 | int16 | int8 | string | complex64 | int64 | bool | qint8 | quint8 | qint32 | bfloat16 | qint16
  | quint16 | uint16 | complex128 | half | resource | variant | uint32 | uint64
  deriving DecidableEq, Repr

/-- The number of a type in a message: a type, the reference to one, or neither. -/
inductive TfDataType
  | one (t : TfType)
  | ref (t : TfType)
  | other (n : Int)
  deriving DecidableEq, Repr

/-- The message of a tensor. Floats are known by their bits; of resources and variants only their number matters. -/
structure TensorProto where
  dtype : TfDataType
  tensorShape : Option (List Int64) := none
  tensorContent : List UInt8 := []
  halfVal : List Int32 := []
  floatVal : List UInt32 := []
  doubleVal : List UInt64 := []
  intVal : List Int32 := []
  stringVal : List (List UInt8) := []
  scomplexVal : List UInt32 := []
  int64Val : List Int64 := []
  boolVal : List Bool := []
  dcomplexVal : List UInt64 := []
  resourceHandleVal : Nat := 0
  variantVal : Nat := 0
  uint32Val : List UInt32 := []
  uint64Val : List UInt64 := []
  deriving DecidableEq, Repr

/-- The tensor that is set: its data, and of its descriptor what is written. -/
structure AssignedTensor (M : AttrMessages) where
  data : GeTensorState := {}
  shape : List Int64 := []
  format : Format := Format.nd
  originFormat : Format := Format.nd
  attrs : AttrHolder M := {}

namespace TensorAssign

variable {M : AttrMessages}

/-! ## Types -/

/-- The entries of the table of types, those of references the same. -/
def geType : TfType → DataType
  | .float => .float
  | .half => .float16
  | .int8 => .int8
  | .int16 => .int16
  | .uint16 => .uint16
  | .uint8 => .uint8
  | .int32 => .int32
  | .int64 => .int64
  | .uint32 => .uint32
  | .uint64 => .uint64
  | .bool => .bool
  | .double => .double
  | .complex64 => .complex64
  | .qint8 => .int8
  | .quint8 => .uint8
  | .qint32 => .int32
  | .qint16 => .int16
  | .quint16 => .uint16
  | .complex128 => .complex128
  | .resource => .resource
  | .bfloat16 => .float16
  | .string => .string
  | .variant => .variant

/-- `ConvertTensorflowDataType`. There is no entry for the reference to a variant. -/
def convertTensorflowDataType : TfDataType → DataType
  | .one t => geType t
  | .ref .variant => .undefined
  | .ref t => geType t
  | .other _ => .undefined

/-- Whether a number is one of types or a reference to one. -/
def isOneOf (types : List TfType) : TfDataType → Bool
  | .one t => t ∈ types
  | .ref t => t ∈ types
  | .other _ => false

def checkBoolVal : TfDataType → Bool := isOneOf [.bool]

def checkHalfVal : TfDataType → Bool := isOneOf [.half, .bfloat16]

def checkFloatVal : TfDataType → Bool := isOneOf [.float]

def checkDoubleVal : TfDataType → Bool := isOneOf [.double]

def checkComplex64Val : TfDataType → Bool := isOneOf [.complex64]

def checkComplex128Val : TfDataType → Bool := isOneOf [.complex128]

def checkStringVal : TfDataType → Bool := isOneOf [.string]

def checkByte : TfDataType → Bool := isOneOf [.uint8, .int8, .qint8, .quint8]

def checkDoubleByte : TfDataType → Bool := isOneOf [.int16, .uint16, .qint16, .quint16]

def checkSignedFourByte : TfDataType → Bool := isOneOf [.int32, .qint32]

def checkUnsignedFourByte : TfDataType → Bool := isOneOf [.uint32]

def checkSignedEightByte : TfDataType → Bool := isOneOf [.int64]

def checkUnsignedEightByte : TfDataType → Bool := isOneOf [.uint64]

/-! ## Bytes -/

/-- The bytes of a number, the least significant first. -/
def littleEndian (size n : Nat) : List UInt8 := (List.range size).map fun i => UInt8.ofNat (n / 256 ^ i)

/-- The bytes of an integer in its word, or of the end of it in a shorter one. -/
def intBytes (size : Nat) (x : Int) : List UInt8 := littleEndian size (x % 2 ^ (8 * size)).toNat

/-! ## Typed values -/

/-- The elements that are copied: the values, and behind the last one or only one that one again. -/
def copyValues {α : Type} (valVector : List α) (count : Nat) : Option (List α) :=
  let valSize := valVector.length
  let zerosLike := count ≠ valSize ∧ valSize = 1
  let minCount := if count > valSize then valSize else count
  if zerosLike then (List.range count).mapM fun _ => valVector[0]?
  else (List.range count).mapM fun i => if i < minCount then valVector[i]? else valVector[minCount - 1]?

section

-- Where memory is found for a buffer, and where for the data of the tensor.
variable (buff place : Option MemAddr)

/-- `GetVal`, with the bytes of a value. No buffer is made for a count below zero, and what `SetData` returns is not looked at. -/
def getVal {α : Type} (bytes : α → List UInt8) (valVector : List α) (count : Int) (weight : AssignedTensor M) :
    Option (AssignedTensor M) :=
  if count < 0 ∨ buff = none then some weight
  else
    (copyValues valVector count.toNat).map fun elements =>
      { weight with data := (weight.data.setDataAt place (some (elements.flatMap bytes))).2 }

/-- `GetDoubleByteVal`. -/
def getDoubleByteVal (valVector : List Int32) (count : Int) (weight : AssignedTensor M) : Option (AssignedTensor M) :=
  getVal buff place (fun x => intBytes 2 x.toInt) valVector count weight

/-- `GetByteVal`. -/
def getByteVal (valVector : List Int32) (count : Int) (weight : AssignedTensor M) : Option (AssignedTensor M) :=
  getVal buff place (fun x => intBytes 1 x.toInt) valVector count weight

end

/-! ## Strings -/

section

-- Whether `memcpy_s` copies, by the bytes there is room for and those to copy; and where a buffer of a size is found.
variable (memcpyS : Nat → Nat → Bool) (newArray : Nat → Option MemAddr) (place : Option MemAddr)

/-- The loop over the slots, for a buffer at an address: a slot and the string for it, or a zero where there is none. -/
def storeSlots (address : MemAddr) (strAt : Nat → Option (List UInt8)) :
    (todo i rawData : Nat) → List UInt8 → Option (List UInt8)
  | 0, _, _, buff => some buff
  | todo + 1, i, rawData, buff =>
    (writeAt buff (8 * i) (addressBytes (address + rawData))).bind fun buff =>
      match strAt i with
      | none => storeSlots address strAt todo (i + 1) (rawData + 1) buff
      | some str =>
        (if memcpyS (str.length + 1) (str.length + 1) then writeAt buff rawData (str ++ [0]) else some buff).bind
          (storeSlots address strAt todo (i + 1) (rawData + (str.length + 1)))

/-- The size of the buffer. That of the strings that are missing is counted in 32 bits. -/
def stringTotalSize (valVector : List (List UInt8)) (count : Int) : Nat :=
  let valSize : Int := valVector.length
  if count ≠ valSize ∧ valSize = 1 then
    (((valVector.headD []).length + 9 : Nat) * count % 2 ^ 64).toNat
  else
    let minCount := if count > valSize then valSize else count
    ((valVector.take minCount.toNat).map fun str => str.length + 9).sum + ((count - minCount) * 9 % 2 ^ 32).toNat

/-- `GetStringVal`. -/
def getStringVal (valVector : List (List UInt8)) (count : Int) (weight : AssignedTensor M) : Option (AssignedTensor M) :=
  let totalSize := stringTotalSize valVector count
  let flag := count ≠ (valVector.length : Int) ∧ valVector.length = 1
  match newArray totalSize with
  | none => some weight
  | some address =>
    (storeSlots memcpyS address (fun i => if flag then valVector[0]? else valVector[i]?) count.toNat 0 (8 * count.toNat)
      (List.replicate totalSize 0)).map fun bytes =>
        { weight with data := weight.data.setFromBuffer place address bytes }

/-- The string branch of `SetWeightData`: the first byte of the content is a length. -/
def setStringContent (tensorContent : List UInt8) (weight : AssignedTensor M) : Option (AssignedTensor M) :=
  let weightContent := if tensorContent.length > 1 then tensorContent.drop 1 else []
  let totalSize := weightContent.length + 9
  match newArray totalSize with
  | none => some weight
  | some address =>
    (storeSlots memcpyS address (fun _ => some weightContent) 1 0 8 (List.replicate totalSize 0)).map fun bytes =>
      { weight with data := weight.data.setFromBuffer place address bytes }

/-! ## Setting a tensor -/

/-- `SetGeTensorWeightData`. -/
def setGeTensorWeightData (tensor : TensorProto) (count : Int) (weight : AssignedTensor M) : Option (AssignedTensor M) :=
  -- the buffers of the numbers have no addresses in them, so it matters only whether there is one
  let buff (size : Nat) := newArray (count.toNat * size)
  let dataType := tensor.dtype
  if checkFloatVal dataType then getVal (buff 4) place (fun x => littleEndian 4 x.toNat) tensor.floatVal count weight
  else if checkComplex64Val dataType then getVal (buff 4) place (fun x => littleEndian 4 x.toNat) tensor.scomplexVal count weight
  else if checkSignedFourByte dataType then getVal (buff 4) place (fun x => intBytes 4 x.toInt) tensor.intVal count weight
  else if checkUnsignedFourByte dataType then
    getVal (buff 4) place (fun x => littleEndian 4 x.toNat) tensor.uint32Val count weight
  else if checkSignedEightByte dataType then getVal (buff 8) place (fun x => intBytes 8 x.toInt) tensor.int64Val count weight
  else if checkUnsignedEightByte dataType then
    getVal (buff 8) place (fun x => littleEndian 8 x.toNat) tensor.uint64Val count weight
  else if checkBoolVal dataType then getVal (buff 1) place (fun x => [if x then 1 else 0]) tensor.boolVal count weight
  else if checkStringVal dataType then getStringVal memcpyS newArray place tensor.stringVal count weight
  else if checkHalfVal dataType then getDoubleByteVal (buff 2) place tensor.halfVal count weight
  else if checkDoubleByte dataType then getDoubleByteVal (buff 2) place tensor.intVal count weight
  else if checkByte dataType then getByteVal (buff 1) place tensor.intVal count weight
  else if checkDoubleVal dataType then getVal (buff 8) place (fun x => littleEndian 8 x.toNat) tensor.doubleVal count weight
  else if checkComplex128Val dataType then
    getVal (buff 8) place (fun x => littleEndian 8 x.toNat) tensor.dcomplexVal count weight
  else some weight

/-- The front of the content is copied, as many elements of a size as are counted. -/
def setContent (count : Int) (size : Nat) (tensorContent : List UInt8) (weight : AssignedTensor M) :
    Option (AssignedTensor M) :=
  let bytes := (count * size % 2 ^ 64).toNat
  if tensorContent.length < bytes then none
  else some { weight with data := (weight.data.setDataAt place (some (tensorContent.take bytes))).2 }

/-- `SetWeightData`. -/
def setWeightData (dataType : TfDataType) (count : Int) (tensorContent : List UInt8) (weight : AssignedTensor M) :
    Option (AssignedTensor M) :=
  if checkByte dataType then setContent place count 1 tensorContent weight
  else if checkBoolVal dataType then setContent place count 1 tensorContent weight
  else if checkHalfVal dataType || checkDoubleByte dataType then setContent place count 2 tensorContent weight
  else if checkSignedFourByte dataType || checkUnsignedFourByte dataType then setContent place count 4 tensorContent weight
  else if checkSignedEightByte dataType || checkUnsignedEightByte dataType then setContent place count 8 tensorContent weight
  else if checkDoubleVal dataType || checkComplex128Val dataType then setContent place count 8 tensorContent weight
  else if checkStringVal dataType then setStringContent memcpyS newArray place tensorContent weight
  else setContent place count 4 tensorContent weight

/-- The table of the numbers of values. -/
def datatypeValSize (tensor : TensorProto) : Option Nat :=
  let size : TfType → Nat
    | .float => tensor.floatVal.length
    | .int32 => tensor.intVal.length
    | .int64 => tensor.int64Val.length
    | .bool => tensor.boolVal.length
    | .half => tensor.halfVal.length
    | .int8 => tensor.intVal.length
    | .uint8 => tensor.intVal.length
    | .int16 => tensor.intVal.length
    | .uint16 => tensor.intVal.length
    | .double => tensor.doubleVal.length
    | .string => tensor.stringVal.length
    | .qint8 => tensor.intVal.length
    | .qint16 => tensor.intVal.length
    | .qint32 => tensor.intVal.length
    | .quint8 => tensor.intVal.length
    | .quint16 => tensor.intVal.length
    | .complex64 => tensor.scomplexVal.length
    | .complex128 => tensor.dcomplexVal.length
    | .bfloat16 => tensor.halfVal.length
    | .uint32 => tensor.uint32Val.length
    | .uint64 => tensor.uint64Val.length
    | .resource => tensor.resourceHandleVal
    | .variant => tensor.variantVal
  match tensor.dtype with
  | .one t => some (size t)
  | .ref t => some (size t)
  | .other _ => none

/-- The loop over the dimensions. The product is kept in 32 bits, and checked against the bound of 64. -/
def countDims : List Int64 → Int → Option Int
  | [], count => some count
  | dim :: dims, count =>
    if dim.toInt < 0 then none
    else if count ≠ 0 ∧ dim.toInt ≥ Int.tdiv (2 ^ 63 - 1) count then none
    else countDims dims ((count * dim.toInt).bmod (2 ^ 32))

/-- `SetGeTensor`. -/
def setGeTensor (tensor : TensorProto) (weight : Option (AssignedTensor M)) : Option (Bool × Option (AssignedTensor M)) :=
  match weight, datatypeValSize tensor with
  | none, _ => some (false, none)
  | some weight, none => some (false, weight)
  | some weight, some valSize =>
    let dims := tensor.tensorShape.getD []
    match countDims dims 1 with
    | none => some (false, weight)
    | some count =>
      let weight := { weight with shape := dims, format := Format.nd, originFormat := Format.nd }
      if 0 < valSize then
        (setGeTensorWeightData memcpyS newArray place tensor count weight).map fun weight =>
          let r := AttrUtils.set weight.attrs "origin_element_num" (.one .int) (Int64.ofNat valSize)
          (r.1, some { weight with attrs := r.2 })
      else if tensor.tensorContent ≠ [] then
        (setWeightData memcpyS newArray place tensor.dtype count tensor.tensorContent weight).map fun weight =>
          (true, some weight)
      else some (count = 0, weight)

end

end TensorAssign

end Metadef
