import Metadef.Shapes
import Metadef.GraphUtils

/-!
# Sizes of tensors

The number of bytes a tensor takes, in `tensor_utils.cc`: its elements, counted by the format it is stored in, times the length of an
element, and the size of the memory for it. Every product is asked for an overflow before it is formed.
-/

namespace Metadef

/-! ## Formats -/

namespace Format

def nchw : Format := 0
def nhwc : Format := 1
def nc1hwc0 : Format := 3
def fractalZ : Format := 4
def nc1hwc0C04 : Format := 12
def fractalZC04 : Format := 13
def chwn : Format := 14
def hwcn : Format := 16
def c1hwncoc0 : Format := 25
def md : Format := 26
def ndhwc : Format := 27
def fractalZz : Format := 28
def fractalNz : Format := 29
def ncdhw : Format := 30
def dhwcn : Format := 31
def ndc1hwc0 : Format := 32
def fractalZ3d : Format := 33
def dhwnc : Format := 36
def fractalZ3dTranspose : Format := 37
def fractalZnLstm : Format := 38

end Format

/-! ## Products -/

/-- What is reported when there is no size. -/
inductive SizeReport
  | multiply (a b : Int64)
  | dimsSize (function : String) (size : Nat)
  | format (format : Format)
  | dataType (dataType : DataType)
  | outOfRange (size : Int64)
  /-- A signed overflow, which has no outcome in the source. -/
  | undefined
  deriving DecidableEq, Repr

/-- Whether a product overflows. -/
def checkMultiplyOverflowInt64 (a b : Int64) : Bool :=
  if a > 0 then
    if b > 0 then
      if a > Int64.maxValue / b then true else false
    else if b < Int64.minValue / a then true
    else false
  else if b > 0 then
    if a < Int64.minValue / b then true else false
  else if a ≠ 0 ∧ b < Int64.maxValue / a then true
  else false

/-- A signed product. -/
def signedMul (a b : Int64) : Except SizeReport Int64 :=
  if SignedProduct.Fits (a.toInt * b.toInt) then .ok (a * b) else .error .undefined

/-- A signed sum. -/
def signedAdd (a b : Int64) : Except SizeReport Int64 :=
  if SignedProduct.Fits (a.toInt + b.toInt) then .ok (a + b) else .error .undefined

/-- A product that is reported when it overflows. -/
def checkedMul (a b : Int64) : Except SizeReport Int64 :=
  if checkMultiplyOverflowInt64 a b then .error (.multiply a b) else signedMul a b

/-! ## Elements -/

/-- Multiplies a count by dimensions. -/
def multiplyDims (elementCnt : Int64) : List Int64 → Except SizeReport Int64
  | [] => .ok elementCnt
  | dim :: dims => checkedMul elementCnt dim >>= fun elementCnt => multiplyDims elementCnt dims

def calcElementCntByDims (dims : List Int64) : Except SizeReport Int64 := multiplyDims 1 dims

/-- Another number of dimensions than the format has is only warned about. -/
def calcElementCntOfFixedDims (dims : List Int64) (_format : Format) (_fixedDimSize : Nat) : Except SizeReport Int64 :=
  calcElementCntByDims dims

def getDimC0 (dataType : DataType) : Int64 :=
  if dataType = .int8 ∨ dataType = .uint8 ∨ dataType = .dualSubUint8 ∨ dataType = .dualSubInt8 ∨ dataType = .bool ∨
    dataType = .qint8
  then 32 else 16

/-- The quotient rounded up. -/
def ceilDiv (a b : Int64) : Int64 := Int64.ofInt (-(-a.toInt / b.toInt))

def calcElementCntOfNc1hwc0 (dims : List Int64) (dataType : DataType) : Except SizeReport Int64 :=
  match dims with
  | [_, _, _, _, _] => calcElementCntByDims dims
  | [n, c, h, w] =>
    let c0 := getDimC0 dataType
    let c1 := ceilDiv c c0
    calcElementCntByDims [n, c1, h, w, c0]
  | _ => .error (.dimsSize "CalcElementCntOfNc1hwc0" dims.length)

/-- The count depends on the value of the environment variable `PARSER_PRIORITY`. -/
def calcElementCntOfFractalZ (parserPriority : Option String) (dims : List Int64) (dataType : DataType) : Except SizeReport Int64 :=
  if parserPriority = some "cce" then
    match dims with
    | [n, c, h, w] => do
      let c0 := getDimC0 dataType
      let c1 := ceilDiv c c0
      let rCount ← calcElementCntByDims [c1, h, w, c0]
      let ncCnt := ceilDiv n 16
      let vcCnt := rCount / c0
      let cubeElemCnt ← signedMul c0 16
      let cCnt ← checkedMul ncCnt vcCnt
      checkedMul cCnt cubeElemCnt
    | _ => .error (.dimsSize "CalcElementCntOfFractalZ" dims.length)
  else calcElementCntByDims dims

/-- The verdict of the first dimension that is not positive. -/
def nonPositive : List Int64 → Option Int64
  | [] => none
  | dim :: dims => if dim < 0 then some (-1) else if dim = 0 then some 0 else nonPositive dims

def calcTensorElementCnt (parserPriority : Option String) (dims : List Int64) (format : Format) (dataType : DataType) :
    Except SizeReport Int64 :=
  match nonPositive dims with
  | some elementCnt => .ok elementCnt
  | none =>
    if format ∈ [Format.nd, Format.md] then calcElementCntByDims dims
    else if format ∈ [Format.nchw, Format.hwcn, Format.nhwc, Format.chwn] then calcElementCntOfFixedDims dims format 4
    else if format = Format.c1hwncoc0 then calcElementCntOfFixedDims dims format 6
    else if format = Format.nc1hwc0 then calcElementCntOfNc1hwc0 dims dataType
    else if format = Format.fractalZ then calcElementCntOfFractalZ parserPriority dims dataType
    else if format ∈ [Format.fractalNz, Format.fractalZz, Format.ndhwc, Format.ncdhw, Format.dhwcn, Format.dhwnc, Format.fractalZ3d,
      Format.fractalZ3dTranspose, Format.ndc1hwc0, Format.fractalZC04, Format.fractalZnLstm, Format.nc1hwc0C04] then
      calcElementCntByDims dims
    else .error (.format format)

/-! ## Bytes -/

namespace TensorUtils

/-- The size of a tensor, `-1` when the shape is unknown. -/
def calcTensorMemSize (parserPriority : Option String) (shape : GeShape) (format : Format) (dataType : DataType) :
    Except SizeReport Int64 :=
  match getDataTypeLength dataType with
  | none => .error (.dataType dataType)
  | some typeSize => do
    let elementCnt ← calcTensorElementCnt parserPriority shape.getDims format dataType
    if elementCnt < 0 then return -1
    checkedMul elementCnt (Int64.ofNat typeSize.toNat)

def getTensorSizeInBytes (parserPriority : Option String) (shape : GeShape) (format : Format) (dataType : DataType) :
    Except SizeReport Int64 := do
  let outputMemSize ← calcTensorMemSize parserPriority shape format dataType
  if outputMemSize < 0 then throw (.outOfRange outputMemSize)
  return outputMemSize

/-- The size of the memory for a number of bytes. One that cannot be aligned is only warned about. -/
def alignMemSize (sizeTemp : Int64) : Except SizeReport Int64 :=
  if sizeTemp > Int64.maxValue - 2 * 32 then .ok sizeTemp
  else do
    let sum ← signedAdd sizeTemp (2 * 32)
    let sum ← signedAdd sum (-1)
    signedMul (sum / 32) 32

def getTensorMemorySizeInBytes (parserPriority : Option String) (shape : GeShape) (format : Format) (dataType : DataType) :
    Except SizeReport Int64 := do
  alignMemSize (← getTensorSizeInBytes parserPriority shape format dataType)

end TensorUtils

end Metadef
