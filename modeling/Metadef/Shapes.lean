import Metadef.Lib.SignedProduct

/-!
# Shapes and data types

The two classes of shapes, of `ge_tensor.cc` inside the graph and of `tensor.cc` outside of it, with the sizes they count, the
lengths of data types of `type_utils.cc`, and the check of a tensor against its data. A signed sum or product that does not fit
into its word has no value in the source, and none here.
-/

namespace Metadef

/-! ## Data types -/

inductive DataType
  | float | float16 | int8 | int16 | uint16 | uint8 | int32 | int64 | uint32 | uint64 | bool | double | string | dualSubInt8
  | dualSubUint8 | complex64 | complex128 | qint8 | qint16 | qint32 | quint8 | quint16 | resource | stringRef | dual | variant
  | undefined
  deriving DecidableEq, Repr

/-- The number of bytes of an element. -/
def getDataTypeLength : DataType → Option UInt32
  | .bool => some 1
  | .int64 => some 8
  | .uint64 => some 8
  | .float => some 4
  | .int32 => some 4
  | .uint32 => some 4
  | .int8 => some 1
  | .uint8 => some 1
  | .int16 => some 2
  | .uint16 => some 2
  | .float16 => some 2
  | .double => some 8
  | .dual => some 5
  | .dualSubInt8 => some 1
  | .dualSubUint8 => some 1
  | .complex64 => some 8
  | .complex128 => some 16
  | .qint8 => some 1
  | .qint16 => some 2
  | .qint32 => some 4
  | .quint8 => some 1
  | .quint16 => some 2
  | .stringRef => some 16
  | .string => some 8
  | .resource => some 8
  | .variant => some 8
  | .undefined => none

/-- No element is empty, and none is longer than sixteen bytes. -/
theorem getDataTypeLength_bounds {dataType : DataType} {length : UInt32} (h : getDataTypeLength dataType = some length) :
    1 ≤ length.toNat ∧ length.toNat ≤ 16 := by
  revert h
  cases dataType <;> simp only [getDataTypeLength, Option.some.injEq, reduceCtorEq, false_implies] <;> rintro rfl <;> decide

/-! ## Dimensions -/

def unknownDim : Int64 := -1

def unknownDimNum : Int64 := -2

/-- A dimension that is neither unknown nor the sign of an unknown number of dimensions. -/
def knownDim (dim : Int64) : Bool := dim != unknownDim && dim != unknownDimNum

/-! ## Shapes inside the graph -/

/-- A shape keeps the dimensions as they are given. -/
structure GeShape where
  dims : List Int64
  deriving DecidableEq, Repr

namespace GeShape

def getDims (shape : GeShape) : List Int64 := shape.dims

/-- The number of dimensions, zero when it is unknown. -/
def getDimNum (shape : GeShape) : Nat := if unknownDimNum ∈ shape.dims then 0 else shape.dims.length

/-- Sets a dimension that is there. -/
def setDim (shape : GeShape) (idx : Nat) (value : Int64) : GeShape := ⟨shape.dims.set idx value⟩

/-- Multiplies a value by dimensions up to one that is not known, blindly. -/
def multiply (res : Int64) : List Int64 → Option Int64
  | [] => some res
  | i :: dims =>
    if i = unknownDim ∨ i = unknownDimNum then some unknownDim
    else if SignedProduct.Fits (res.toInt * i.toInt) then multiply (res * i) dims
    else none

def getShapeSize (shape : GeShape) : Option Int64 := if shape.dims.isEmpty then some 0 else multiply 1 shape.dims

end GeShape

/-! ## Shapes outside of the graph -/

/-- Whether a product does not overflow. -/
def int64MulNotOverflow (a b : Int64) : Bool :=
  if a > 0 then
    if b > 0 then
      if a > Int64.maxValue / b then false else true
    else if b < Int64.minValue / a then false
    else true
  else if b > 0 then
    if a < Int64.minValue / b then false else true
  else if a ≠ 0 ∧ b < Int64.maxValue / a then false
  else true

structure Shape where
  dims : List Int64
  deriving DecidableEq, Repr

namespace Shape

/-- A shape of dimensions. One whose number of dimensions is unknown holds nothing but the sign of it. -/
def make (dims : List Int64) : Shape := ⟨if unknownDimNum ∈ dims then [unknownDimNum] else dims⟩

def getDims (shape : Shape) : List Int64 := shape.dims

/-- The number of dimensions, zero when it is unknown. -/
def getDimNum (shape : Shape) : Nat := if unknownDimNum ∈ shape.dims then 0 else shape.dims.length

/-- Sets a dimension that is there, to any value. -/
def setDim (shape : Shape) (idx : Nat) (value : Int64) : Shape := ⟨shape.dims.set idx value⟩

/-- Multiplies a size by dimensions up to one that is not known. An overflow makes the size zero. -/
def multiply (size : Int64) : List Int64 → Int64
  | [] => size
  | i :: dims =>
    if i = unknownDimNum ∨ i = unknownDim then -1
    else if !int64MulNotOverflow size i then 0
    else multiply (size * i) dims

def getShapeSize (shape : Shape) : Int64 := if shape.dims.isEmpty then 0 else multiply 1 shape.dims

end Shape

/-! ## Conversions -/

/-- The shape of a descriptor that is taken into the graph. -/
def Shape.toGeShape (shape : Shape) : GeShape := ⟨shape.getDims⟩

/-- The shape of a descriptor that is taken out of the graph. -/
def GeShape.toShape (shape : GeShape) : Shape := Shape.make shape.getDims

/-! ## Tensors -/

/-- What a tensor is made of: its descriptor in the graph, as far as its size is read from it, and its data, which fit into memory. -/
structure TensorImpl where
  shape : GeShape
  dataType : DataType
  data : List UInt8
  size_lt : data.length < 2 ^ 64

namespace TensorImpl

def getSize (tensor : TensorImpl) : UInt64 := UInt64.ofNat tensor.data.length

/-- Checks the data against the shape. A signed size is read as an unsigned one, and an overflow passes. -/
def isValid (tensor : TensorImpl) : Bool :=
  let shapeSize : UInt64 := tensor.shape.toShape.getShapeSize.toUInt64
  match getDataTypeLength tensor.dataType with
  | none => true
  | some typeLength =>
    let dataSize := tensor.getSize
    if tensor.dataType ≠ .string then
      if shapeSize ≠ 0 ∨ dataSize ≠ typeLength.toUInt64 then
        if typeLength ≠ 0 ∧ UInt64.ofNat (2 ^ 64 - 1) / typeLength.toUInt64 < shapeSize then true
        else if shapeSize * typeLength.toUInt64 ≠ dataSize then false
        else true
      else true
    else true

end TensorImpl

end Metadef
