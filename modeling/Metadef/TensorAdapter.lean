import Metadef.Shapes
import Metadef.FormatRefiner

/-!
# Descriptors of tensors outside of the graph

The descriptor of `tensor.cc`, which keeps its fields as they are set, the message `ge_tensor.cc` keeps the descriptor of a graph in,
and the translations of `TensorAdapter` between them. A format is kept in the message as a text, and the counter of dimensions goes
through a word of 32 bits.
-/

namespace Metadef

/-! ## The descriptor -/

/-- What a descriptor holds. -/
structure TensorDescImpl where
  shape : Shape := ⟨[]⟩
  range : List (Int64 × Int64) := []
  format : Format := Format.nd
  originFormat : Format := Format.nd
  dataType : DataType := .float
  originShape : Shape := ⟨[]⟩
  size : Int64 := 0
  realDimCnt : Int64 := 0
  name : String := ""
  deriving DecidableEq, Repr

/-- A descriptor. One that was moved from holds nothing. -/
structure TensorDesc where
  impl : Option TensorDescImpl
  deriving DecidableEq, Repr

namespace TensorDesc

variable (d : TensorDesc)

def getShape : Shape := (d.impl.map TensorDescImpl.shape).getD ⟨[]⟩

def getFormat : Format := (d.impl.map TensorDescImpl.format).getD Format.reserved

def getDataType : DataType := (d.impl.map TensorDescImpl.dataType).getD .undefined

def getOriginShape : Shape := (d.impl.map TensorDescImpl.originShape).getD ⟨[]⟩

def getOriginFormat : Format := (d.impl.map TensorDescImpl.originFormat).getD Format.reserved

def getName : String := (d.impl.map TensorDescImpl.name).getD ""

/-- Reads the ranges into a vector, and says whether there are any to read. -/
def getShapeRange (range : List (Int64 × Int64)) : Bool × List (Int64 × Int64) :=
  match d.impl with
  | some impl => (true, impl.range)
  | none => (false, range)

def getSize : Int64 := (d.impl.map TensorDescImpl.size).getD 0

def getRealDimCnt : Int64 := (d.impl.map TensorDescImpl.realDimCnt).getD 0

/-- Changes what a descriptor holds. -/
def update (f : TensorDescImpl → TensorDescImpl) : TensorDesc := ⟨d.impl.map f⟩

def setOriginShape (originShape : Shape) : TensorDesc := d.update ({ · with originShape })

def setOriginFormat (originFormat : Format) : TensorDesc := d.update ({ · with originFormat })

def setName (name : String) : TensorDesc := d.update ({ · with name })

def setShapeRange (range : List (Int64 × Int64)) : TensorDesc := d.update ({ · with range })

def setSize (size : Int64) : TensorDesc := d.update ({ · with size })

def setRealDimCnt (realDimCnt : Int64) : TensorDesc := d.update ({ · with realDimCnt })

/-- A descriptor of a shape, a format and a data type. -/
def make (shape : Shape) (format : Format) (dataType : DataType) : TensorDesc :=
  (TensorDesc.mk (some { shape, format, dataType })).setRealDimCnt (Int64.ofNat shape.getDimNum)

end TensorDesc

/-! ## The message -/

/-- The message of a descriptor in the graph, with the attributes that fields travel in. -/
structure TensorDescriptor where
  name : String := ""
  dtype : DataType := .float
  shape : GeShape := ⟨[]⟩
  /-- What the text of the format reads back as. -/
  layout : Format := Format.nd
  size : Int64 := 0
  realDimCnt : Int64 := 0
  originShape : Option (List Int64) := none
  originFormat : Option Format := some Format.nd
  shapeRange : Option (List (List Int64)) := none

namespace TensorDescriptor

variable (m : TensorDescriptor)

def setFormat (format : Format) : TensorDescriptor := { m with layout := format.kept }

def setDataType (dtype : DataType) : TensorDescriptor := { m with dtype }

/-- A descriptor of a shape, a format and a data type. -/
def make (shape : GeShape) (format : Format) (dataType : DataType) : TensorDescriptor :=
  { (({} : TensorDescriptor).setFormat format).setDataType dataType with shape }

def setOriginShape (originShape : GeShape) : TensorDescriptor := { m with originShape := some originShape.getDims }

def getOriginShape : GeShape := ⟨m.originShape.getD []⟩

/-- The text `RESERVED` stands for the reserved format. -/
def setOriginFormat (originFormat : Format) : TensorDescriptor :=
  { m with originFormat := some (if originFormat = Format.reserved then Format.reserved else originFormat.kept) }

def getOriginFormat : Format := m.originFormat.getD Format.reserved

def setName (name : String) : TensorDescriptor := { m with name }

def setShapeRange (range : List (Int64 × Int64)) : TensorDescriptor := { m with shapeRange := some (range.map fun e => [e.1, e.2]) }

/-- Reads lists of two numbers into a vector, up to one that has not two. -/
def readRange (range : List (Int64 × Int64)) : List (List Int64) → Bool × List (Int64 × Int64)
  | [] => (true, range)
  | [a, b] :: rest => readRange (range ++ [(a, b)]) rest
  | _ :: _ => (false, range)

def getShapeRange (range : List (Int64 × Int64)) : Bool × List (Int64 × Int64) := readRange range (m.shapeRange.getD [])

/-- `TensorUtils::SetSize`. -/
def setSize (size : Int64) : TensorDescriptor := { m with size }

/-- `TensorUtils::SetRealDimCnt`, which takes a word of 32 bits. -/
def setRealDimCnt (cnt : UInt32) : TensorDescriptor := { m with realDimCnt := Int64.ofNat cnt.toNat }

/-- `TensorUtils::GetRealDimCnt`, which gives one. -/
def getRealDimCnt : UInt32 := m.realDimCnt.toUInt64.toUInt32

end TensorDescriptor

/-! ## Translations -/

namespace TensorAdapter

def tensorDesc2GeTensorDesc (d : TensorDesc) : TensorDescriptor :=
  let m := TensorDescriptor.make d.getShape.toGeShape d.getFormat d.getDataType
  let m := m.setOriginShape d.getOriginShape.toGeShape
  let m := m.setOriginFormat d.getOriginFormat
  let m := m.setName d.getName
  let (status, shapeRange) := d.getShapeRange []
  if !status then m
  else
    let m := m.setShapeRange shapeRange
    let m := m.setSize d.getSize
    m.setRealDimCnt d.getRealDimCnt.toUInt64.toUInt32

def geTensorDesc2TensorDesc (m : TensorDescriptor) : TensorDesc :=
  let d := TensorDesc.make m.shape.toShape m.layout m.dtype
  let d := d.setOriginShape m.getOriginShape.toShape
  let d := d.setOriginFormat m.getOriginFormat
  let d := d.setName m.name
  let (status, shapeRange) := m.getShapeRange []
  if !status then d
  else
    let d := d.setShapeRange shapeRange
    let d := d.setSize m.size
    d.setRealDimCnt (Int64.ofNat m.getRealDimCnt.toNat)

end TensorAdapter

end Metadef
