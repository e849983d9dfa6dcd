import Metadef.OnnxUtils
import Metadef.TransformerUtils

/-!
# Attributes of nodes in the open format

The part of `DecodeNodeDesc` that puts the attributes of a node into its descriptor. An attribute of a tensor names the descriptor by
its index, which may be any number; a descriptor that is not there is looked for before it is used.
-/

namespace Metadef

/-! ## Texts -/

namespace TypeUtils

/-- `kStringTodataTypeMap`. -/
def stringToDataTypeMap : List (String × DataType) :=
  [("DT_UNDEFINED", .undefined), ("DT_FLOAT", .float), ("DT_FLOAT16", .float16), ("DT_INT8", .int8), ("DT_INT16", .int16),
    ("DT_UINT16", .uint16), ("DT_UINT8", .uint8), ("DT_INT32", .int32), ("DT_INT64", .int64), ("DT_UINT32", .uint32),
    ("DT_UINT64", .uint64), ("DT_BOOL", .bool), ("DT_DOUBLE", .double), ("DT_DUAL", .dual), ("DT_DUAL_SUB_INT8", .dualSubInt8),
    ("DT_DUAL_SUB_UINT8", .dualSubUint8), ("DT_COMPLEX64", .complex64), ("DT_COMPLEX128", .complex128), ("DT_QINT8", .qint8),
    ("DT_QINT16", .qint16), ("DT_QINT32", .qint32), ("DT_QUINT8", .quint8), ("DT_QUINT16", .quint16), ("DT_RESOURCE", .resource),
    ("DT_STRING_REF", .stringRef), ("DT_STRING", .string), ("DT_FLOAT32", .float), ("DT_VARIANT", .variant)]

/-- `SerialStringToDataType`. -/
def serialStringToDataType (str : String) : DataType := (stringToDataTypeMap.lookup str).getD .undefined

/-- `kStringToFormatMap`. -/
def stringToFormatMap : List (String × Format) :=
  [("NCHW", 0), ("NHWC", 1), ("ND", 2), ("NC1HWC0", 3), ("FRACTAL_Z", 4), ("NC1C0HWPAD", 5), ("NHWC1C0", 6), ("FSR_NCHW", 7),
    ("FRACTAL_DECONV", 8), ("C1HWNC0", 9), ("FRACTAL_DECONV_TRANSPOSE", 10), ("FRACTAL_DECONV_SP_STRIDE_TRANS", 11),
    ("NC1HWC0_C04", 12), ("FRACTAL_Z_C04", 13), ("CHWN", 14), ("DECONV_SP_STRIDE8_TRANS", 15), ("NC1KHKWHWC0", 17),
    ("BN_WEIGHT", 18), ("FILTER_HWCK", 19), ("HWCN", 16), ("LOOKUP_LOOKUPS", 20), ("LOOKUP_KEYS", 21), ("LOOKUP_VALUE", 22),
    ("LOOKUP_OUTPUT", 23), ("LOOKUP_HITS", 24), ("MD", 26), ("C1HWNCoC0", 25), ("FRACTAL_NZ", 29), ("NDHWC", 27), ("NCDHW", 30),
    ("DHWCN", 31), ("DHWNC", 36), ("NDC1HWC0", 32), ("FRACTAL_Z_3D", 33), ("FRACTAL_Z_3D_TRANSPOSE", 37), ("CN", 34), ("NC", 35),
    ("FRACTAL_ZN_LSTM", 38), ("FRACTAL_Z_G", 39), ("FORMAT_RESERVED", 40), ("ALL", 41), ("NULL", 42), ("RESERVED", 40),
    ("UNDEFINED", 40)]

/-- `SplitFormatFromStr`: the text before the first colon and the number behind it, zero where there is no colon. The text behind it
is to be digits, of a number of 16 bits. -/
def splitFormatFromStr (str : String) : Option (String × Nat) :=
  match str.toList.dropWhile (· ≠ ':') with
  | [] => some (str, 0)
  | _ :: subFormat =>
    if subFormat ≠ [] ∧ subFormat.all Char.isDigit ∧ ModelSerializeImp.digitsValue 0 subFormat ≤ 0xffff then
      some (String.ofList (str.toList.takeWhile (· ≠ ':')), ModelSerializeImp.digitsValue 0 subFormat)
    else none

/-- `SerialStringToFormat`. -/
def serialStringToFormat (str : String) : Format :=
  match splitFormatFromStr str with
  | none => Format.reserved
  | some (primaryFormat, subFormat) =>
    match stringToFormatMap.lookup primaryFormat with
    | none => Format.reserved
    | some format => format + 256 * subFormat

end TypeUtils

/-! ## Descriptors -/

/-- A descriptor of a tensor with the offset of its data. -/
structure OnnxTensorDesc extends TensorDescriptor where
  dataOffset : Int64 := 0

/-- The descriptor of a node that is read. The tensors are held by their positions, which their names are made from. -/
structure OnnxOpDesc where
  name : String := ""
  type : String := ""
  id : Int := 0
  streamId : Int := 0
  inputsDesc : List OnnxTensorDesc := []
  outputsDesc : List OnnxTensorDesc := []
  srcName : List String := []
  dstName : List String := []
  srcIndex : List Int64 := []
  dstIndex : List Int64 := []
  inputOffset : List Int64 := []
  outputOffset : List Int64 := []
  /-- The attributes in the message of the descriptor. -/
  attr : OrderedMap String Int := []

namespace OnnxOpDesc

variable (op : OnnxOpDesc)

/-- `MutableInputDesc`, which does not give one that is not valid. -/
def mutableInputDesc (index : Nat) : Option OnnxTensorDesc :=
  match op.inputsDesc[index]? with
  | none => none
  | some d => if d.isValid then some d else none

/-- `MutableOutputDesc`. -/
def mutableOutputDesc (index : Nat) : Option OnnxTensorDesc := op.outputsDesc[index]?

def setInput (index : Nat) (d : OnnxTensorDesc) : OnnxOpDesc := { op with inputsDesc := op.inputsDesc.set index d }

def setOutput (index : Nat) (d : OnnxTensorDesc) : OnnxOpDesc := { op with outputsDesc := op.outputsDesc.set index d }

end OnnxOpDesc

namespace OnnxUtils

/-! ## Values -/

variable (attrProto : AttributeProto GraphProto)

/-- `DecodeAttribute` of a list of texts. One of another type gives none. -/
def decodeStrings : List String := if attrProto.type = .strings then attrProto.strings else []

/-- `DecodeAttribute` of a list of integers. -/
def decodeInts : List Int64 := if attrProto.type = .ints then attrProto.ints else []

/-- `DecodeAttribute` of an integer. -/
def decodeInt : Int := if attrProto.type = .int then attrProto.i else 0

/-! ## Attributes of tensors -/

/-- What an attribute does to the descriptor of a tensor on one side, none where its name is not known. -/
def descUpdate (side attrName : String) : Option (OnnxTensorDesc → OnnxTensorDesc) :=
  if attrName = side ++ "_desc_dtype" then
    some fun d => { d with toTensorDescriptor := d.setDataType (TypeUtils.serialStringToDataType attrProto.s) }
  else if attrName = side ++ "_desc_shape" then
    some fun d => { d with toTensorDescriptor := d.setShape ⟨decodeInts attrProto⟩ }
  else if attrName = side ++ "_desc_layout" then
    some fun d => { d with toTensorDescriptor := d.setFormat (TypeUtils.serialStringToFormat attrProto.s) }
  else if attrName = side ++ "_desc_origin_shape" then
    some fun d => { d with toTensorDescriptor := d.setOriginShape ⟨decodeInts attrProto⟩ }
  else if attrName = side ++ "_desc_origin_layout" then
    some fun d => { d with toTensorDescriptor := d.setOriginFormat (TypeUtils.serialStringToFormat attrProto.s) }
  else if attrName = side ++ "_desc_size" then
    some fun d => { d with size := Int64.ofInt (decodeInt attrProto) }
  else if attrName = side ++ "_desc_data_offset" then
    some fun d => { d with dataOffset := Int64.ofInt (decodeInt attrProto) }
  else none

/-- The body `DecodeNodeAttributeForOpInDesc` and `DecodeNodeAttributeForOpOutDesc` share. The descriptor that is checked for is
fetched again where it is used, and what is used is not checked. -/
def decodeNodeAttributeForDesc (side : String) (mutableDesc : OnnxOpDesc → Nat → Option OnnxTensorDesc)
    (setDesc : OnnxOpDesc → Nat → OnnxTensorDesc → OnnxOpDesc) (attrName : String) (index : Int) : Cmd OnnxOpDesc Unit := do
  let op ← get
  let at32 := (index % 2 ^ 32).toNat
  if (mutableDesc op at32).isNone then return
  let some update := descUpdate attrProto side attrName | return
  match mutableDesc op at32 with
  | none => Cmd.undef
  | some d => set (setDesc op at32 (update d))

def decodeNodeAttributeForOpInDesc : String → Int → Cmd OnnxOpDesc Unit :=
  decodeNodeAttributeForDesc attrProto "input" OnnxOpDesc.mutableInputDesc OnnxOpDesc.setInput

def decodeNodeAttributeForOpOutDesc : String → Int → Cmd OnnxOpDesc Unit :=
  decodeNodeAttributeForDesc attrProto "output" OnnxOpDesc.mutableOutputDesc OnnxOpDesc.setOutput

/-- `DecodeNodeAttributeForOpInAndOutDesc`. -/
def decodeNodeAttributeForOpInAndOutDesc (attrName : String) (index : Int) : Cmd OnnxOpDesc Unit :=
  if attrName.toList.take 5 = "input".toList then decodeNodeAttributeForOpInDesc attrProto attrName index
  else if attrName.toList.take 6 = "output".toList then decodeNodeAttributeForOpOutDesc attrProto attrName index
  else return

/-! ## Attributes of nodes -/

/-- What an attribute without an index does to the descriptor. -/
def setNodeAttribute (op : OnnxOpDesc) : OnnxOpDesc :=
  if attrProto.name = "id" then { op with id := attrProto.i }
  else if attrProto.name = "stream_id" then { op with streamId := attrProto.i }
  else if attrProto.name = "src_name" then { op with srcName := decodeStrings attrProto }
  else if attrProto.name = "dst_name" then { op with dstName := decodeStrings attrProto }
  else if attrProto.name = "src_index" then { op with srcIndex := decodeInts attrProto }
  else if attrProto.name = "dst_index" then { op with dstIndex := decodeInts attrProto }
  else if attrProto.name = "fusion_scope" then { op with attr := op.attr.insert attrProto.name (decodeInt attrProto) }
  else if attrProto.name = "input_i" then { op with inputOffset := decodeInts attrProto }
  else if attrProto.name = "output_i" then { op with outputOffset := decodeInts attrProto }
  else op

/-- `DecodeNodeAttributeForOpDesc`: a name with an index is one of a tensor. -/
def decodeAttributeForOpDesc : Cmd OnnxOpDesc Unit :=
  match parseNameIndex attrProto.name with
  | some (attrName, index) => decodeNodeAttributeForOpInAndOutDesc attrProto attrName index
  | none => modify (setNodeAttribute attrProto)

/-- Adds the empty tensors an attribute counts. -/
def addCountedDescs (op : OnnxOpDesc) (attr : AttributeProto GraphProto) : OnnxOpDesc :=
  let op := if attr.name = "input_desc_nums" then { op with inputsDesc := op.inputsDesc ++ List.replicate attr.i.toNat {} } else op
  if attr.name = "output_desc_nums" then { op with outputsDesc := op.outputsDesc ++ List.replicate attr.i.toNat {} } else op

/-- The loop over the attributes of a node. -/
def decodeAttributes : List (AttributeProto GraphProto) → Cmd OnnxOpDesc Unit
  | [] => return
  | attr :: l => do
    decodeAttributeForOpDesc attr
    decodeAttributes l

/-- `DecodeNodeDesc` with all that the attributes hold, from an empty descriptor. -/
def decodeWholeNodeDesc (p : NodeProto GraphProto) : Cmd OnnxOpDesc Bool := do
  modify fun op => { op with name := p.name }
  let some type := afterColon p.opType | return false
  modify fun op => { op with type }
  modify fun op => p.attributes.foldl addCountedDescs op
  decodeAttributes p.attributes
  return true

end OnnxUtils

end Metadef
