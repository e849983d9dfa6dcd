import Metadef.OnnxAttributes
import Metadef.TensorAssign

/-!
# Mapping operators

`AutoMappingFn`, `AutoMappingByOpFn` and `AutoMappingByOpFnDynamic` of `register.cpp`, with the conversions of
`auto_mapping_util.cpp`. An operator is filled from a node of TensorFlow, attribute by attribute in whatever order its map has them,
or from another operator. Then descriptors are put in for the ports whose number an attribute tells.
-/

namespace Metadef

/-! ## Data -/

/-- The value of an attribute of TensorFlow. A shape may be of no rank; a function is a name with attributes. -/
inductive TfAttrValue
  | notSet
  | s (x : String)
  | i (x : Int64)
  | f (x : UInt32)
  | b (x : Bool)
  | type (x : TfDataType)
  | shape (dims : Option (List Int64))
  | tensor (x : TensorProto)
  | placeholder (x : String)
  | func (name : String) (attr : List (String × TfAttrValue))
  | list (s : List String) (i : List Int64) (f : List UInt32) (b : List Bool) (type : List TfDataType)
      (shape : List (Option (List Int64))) (tensor : List TensorProto) (func : List (String × List (String × TfAttrValue)))

/-- The descriptor of an operator with the values of its attributes, and the formats of its inputs and outputs. -/
structure MappedOp (M : AttrMessages) extends OpDescMembers (AttrDef M) Unit Unit where
  inputFormats : List FormatDesc := []
  outputFormats : List FormatDesc := []

/-- Lengths are told beside the names. -/
inductive DynamicType
  | invalid | input | output
  deriving DecidableEq, Repr

structure DynamicInputOutputInfo where
  type : DynamicType := .invalid
  portName : String := ""
  portNameLen : Int := 0
  attrName : String := ""
  attrNameLen : Int := 0
  deriving DecidableEq, Repr

structure DynamicInfo where
  type : DynamicType := .invalid
  insetIndex : Nat := 0
  tensorNum : Nat := 0
  deriving DecidableEq, Repr

namespace DataType

/-- The number of a type. -/
def toInt32 : DataType → Int32
  | .float => 0
  | .float16 => 1
  | .int8 => 2
  | .int32 => 3
  | .uint8 => 4
  | .int16 => 6
  | .uint16 => 7
  | .uint32 => 8
  | .int64 => 9
  | .uint64 => 10
  | .double => 11
  | .bool => 12
  | .string => 13
  | .dualSubInt8 => 14
  | .dualSubUint8 => 15
  | .complex64 => 16
  | .complex128 => 17
  | .qint8 => 18
  | .qint16 => 19
  | .qint32 => 20
  | .quint8 => 21
  | .quint16 => 22
  | .resource => 23
  | .stringRef => 24
  | .dual => 25
  | .variant => 26
  | .undefined => 27

end DataType

namespace TypeUtils

/-- `DataFormatToFormat`. -/
def dataFormatToFormat (str : String) : Format :=
  match splitFormatFromStr str with
  | none => Format.reserved
  | some (primaryFormat, subFormat) =>
    match List.lookup primaryFormat [("NCHW", 0), ("NHWC", 1), ("NDHWC", 27), ("NCDHW", 30), ("ND", Format.nd)] with
    | none => Format.reserved
    | some format => format + 256 * subFormat

end TypeUtils

/-- `OpDescUtils::SetSubgraphInstanceName`. -/
def OpDescUtils.setSubgraphInstanceName (subgraphName subgraphInstanceName : String) (op : OpDesc) : Bool × OpDesc :=
  match op.subgraphNamesToIndex.find subgraphName with
  | none => (false, op)
  | some index => op.setSubgraphInstanceName index subgraphInstanceName

variable {M : AttrMessages}

/-- The loop of a function that can fail over the items of a list: it stops where it does. -/
def eachWhile {α σ : Type} (step : α → σ → Bool × σ) : List α → σ → Bool × σ
  | [], s => (true, s)
  | x :: rest, s =>
    match step x s with
    | (false, s) => (false, s)
    | (true, s) => eachWhile step rest s

/-! ## Values -/

namespace AutoMappingUtil

section

-- What `ConvertTensor` makes of the message of a tensor, none where it fails; and the message of a function with its attributes.
variable (convertTensor : TensorProto → Option (GeTensor M)) (namedAttrs : String → AttrHolder M → M.NamedAttrs)

/-- `ConvertShape`. -/
def convertShape (dims : Option (List Int64)) : List Int64 := dims.getD [-1]

/-- Sets a value in its type, if there is one. -/
def setConverted (key : String) (value : Option ((t : AttrType) × t.Val M)) (obj : AttrHolder M) : AttrHolder M :=
  match value with
  | none => obj
  | some ⟨t, x⟩ => (AttrUtils.set obj key t x).2

mutual

/-- What `ConvertValue` sets for a value. Of a list it is the first kind that has items. -/
def converted : TfAttrValue → Option ((t : AttrType) × t.Val M)
  | .notSet => none
  | .s x => some ⟨.one .str, x⟩
  | .i x => some ⟨.one .int, x⟩
  | .f x => some ⟨.one .float, x⟩
  | .b x => some ⟨.one .bool, x⟩
  | .type x => some ⟨.one .dataType, (TensorAssign.convertTensorflowDataType x).toInt32⟩
  | .shape dims => some ⟨.list .int, convertShape dims⟩
  | .tensor x => (convertTensor x).map fun t => ⟨.one .tensor, some t⟩
  | .placeholder x => some ⟨.one .str, x⟩
  | .func name attr => some ⟨.one .namedAttrs, some (namedAttrs name (convertFunc attr {}))⟩
  | .list s i f b type shape tensor func =>
    if s ≠ [] then some ⟨.list .str, s⟩
    else if i ≠ [] then some ⟨.list .int, i⟩
    else if f ≠ [] then some ⟨.list .float, f⟩
    else if b ≠ [] then some ⟨.list .bool, b⟩
    else if type ≠ [] then some ⟨.list .dataType, type.map fun x => (TensorAssign.convertTensorflowDataType x).toInt32⟩
    else if shape ≠ [] then some ⟨.listListInt, shape.map convertShape⟩
    -- the tensors before one that fails
    else if tensor ≠ [] then some ⟨.list .tensor, (tensor.map convertTensor).takeWhile Option.isSome⟩
    else if func ≠ [] then some ⟨.list .namedAttrs, convertFuncList func⟩
    else none

/-- `ConvertFunc`: the attributes of a function. -/
def convertFunc : List (String × TfAttrValue) → AttrHolder M → AttrHolder M
  | [], func => func
  | (key, value) :: attrs, func => convertFunc attrs (setConverted key (converted value) func)

/-- `ConvertFuncList`. -/
def convertFuncList : List (String × List (String × TfAttrValue)) → List (Option M.NamedAttrs)
  | [] => []
  | (name, attr) :: rest => some (namedAttrs name (convertFunc attr {})) :: convertFuncList rest

end

/-- `ConvertValue`. -/
def convertValue (key : String) (value : TfAttrValue) (obj : AttrHolder M) : AttrHolder M :=
  setConverted key (converted convertTensor namedAttrs value) obj

/-- The type `CopyAttrValue` copies a value in. -/
def valueType : AttrDef M → Option AttrType
  | .notSet => none
  | .one c _ => ofCase c
  | .list l => (l.valType.bind elem).map .list
where
  elem : ValueCase → Option AttrElem
    | .s => some .str
    | .i => some .int
    | .f => some .float
    | .b => some .bool
    | .t => some .tensor
    | .func => some .namedAttrs
    | .dt => some .dataType
    | _ => none
  ofCase (c : ValueCase) : Option AttrType := if c = .listListInt then some .listListInt else (elem c).map .one

/-- A new variable of a type. -/
def newValue : (t : AttrType) → t.Val M
  | .one .int => (0 : Int64)
  | .one .int32 => (0 : Int32)
  | .one .uint32 => (0 : UInt32)
  | .one .float => (0 : UInt32)
  | .one .str => ""
  | .one .bool => false
  | .one .tensorDesc => some M.newDescriptor
  | .one .tensor => none
  | .one .bytes => ({} : Buffer)
  | .one .zeroCopyBytes => ({} : Buffer)
  | .one .namedAttrs => some (namedAttrs "" {})
  | .one .graph => none
  | .one .dataType => (0 : Int32)
  | .list _ => []
  | .listListInt => []

/-- `CopyAttrValue`. -/
def copyAttrValue (key : String) (value : AttrDef M) (objSrc obj : AttrHolder M) : AttrHolder M :=
  match valueType value with
  | none => obj
  | some t => (AttrUtils.set obj key t (AttrUtils.get objSrc key t (newValue namedAttrs t)).2).2

end

end AutoMappingUtil

/-! ## Mapping -/

namespace MappedOp

def setName (op : MappedOp M) (name : String) : MappedOp M := { op with opDef := { op.opDef with name } }

/-- The attributes as an object that has them. -/
def holder (op : MappedOp M) : AttrHolder M := { attrMap := some op.attrs }

def hasAttr (op : MappedOp M) (name : String) : Bool := op.attrs.contains name

/-- `GetSubgraphAttrNames`. -/
def isSubgraphAttr (op : MappedOp M) (name : String) : Bool := op.subgraphIrNamesToType.contains name

/-- The loop of `AutoMappingFunction` over the functions of a list. -/
def addSubgraphs (key : String) : List String → Nat → OpDesc → Bool × OpDesc
  | [], _, op => (true, op)
  | signature :: rest, i, op =>
    match op.addSubgraphName (key ++ toString i) with
    | (false, op) => (false, op)
    | (true, op) =>
      match OpDescUtils.setSubgraphInstanceName (key ++ toString i) signature op with
      | (false, op) => (false, op)
      | (true, op) => addSubgraphs key rest (i + 1) op

/-- `AutoMappingFunction`. -/
def autoMappingFunction (key : String) (value : TfAttrValue) (op : MappedOp M) : Bool × MappedOp M :=
  match value with
  | .func name _ =>
    let r := OpDescUtils.setSubgraphInstanceName key name op.toOpDesc
    (r.1, { op with toOpDesc := r.2 })
  | .list _ _ _ _ _ _ _ func =>
    let r := addSubgraphs key (func.map Prod.fst) 0 op.toOpDesc
    (r.1, { op with toOpDesc := r.2 })
  | _ => (false, op)

/-- What a format attribute reads as, where there is one. -/
def formatAttr (op : MappedOp M) (key : String) (format : String) : String :=
  if op.hasAttr key then (AttrUtils.get op.holder key (.one .str) format).2 else format

/-- `SetOpdescInputOutputFormat`. Of the inputs only those that are valid are set. -/
def setOpdescInputOutputFormat (op : MappedOp M) : MappedOp M :=
  let srcDataFormat := op.formatAttr "src_format" "ND"
  let dstDataFormat := op.formatAttr "dst_format" "ND"
  let srcDataFormat := op.formatAttr "data_format" srcDataFormat
  let dstDataFormat := if op.hasAttr "data_format" then srcDataFormat else dstDataFormat
  { op with
    inputFormats := op.inputFormats.map fun d => if d.isValid then d.setFormats (TypeUtils.dataFormatToFormat srcDataFormat) else d
    outputFormats := op.outputFormats.map fun d => d.setFormats (TypeUtils.dataFormatToFormat dstDataFormat) }

section

variable (convertTensor : TensorProto → Option (GeTensor M)) (namedAttrs : String → AttrHolder M → M.NamedAttrs)

/-- The body of the loop of `AutoMappingFn`. -/
def mapAttr (isSubgraphAttr : String → Bool) (attrPair : String × TfAttrValue) (op : MappedOp M) : Bool × MappedOp M :=
  if attrPair.1 = "input_tensor_desc" ∨ attrPair.1 = "output_tensor_desc" then (true, op)
  else if isSubgraphAttr attrPair.1 then autoMappingFunction attrPair.1 attrPair.2 op
  else
    let obj := AutoMappingUtil.convertValue convertTensor namedAttrs attrPair.1 attrPair.2 op.holder
    (true, { op with attrs := obj.attrMap.getD [] })

/-- `AutoMappingFn`, for a node with a name and its attributes in the order of the loop. -/
def autoMappingFn (name : String) (attr : List (String × TfAttrValue)) (op : MappedOp M) : Bool × MappedOp M :=
  match eachWhile (mapAttr convertTensor namedAttrs op.isSubgraphAttr) attr (op.setName name) with
  | (false, op) => (false, op)
  | (true, op) => (true, op.setOpdescInputOutputFormat)

/-- `AutoMappingByOpFn`. A subgraph name that is there already is a warning only. -/
def autoMappingByOpFn (src dst : MappedOp M) : Bool × MappedOp M :=
  let op := (dst.setName src.getName).toOpDesc
  let op := src.subgraphNamesToIndex.foldl (fun op e => (op.addSubgraphName e.1).2) op
  match eachWhile (fun e op => op.setSubgraphInstanceName e.2 e.1) src.subgraphInstanceNames.zipIdx op with
  | (false, op) => (false, { dst with toOpDesc := op })
  | (true, op) =>
    let obj := src.attrs.foldl (fun obj e => AutoMappingUtil.copyAttrValue namedAttrs e.1 e.2 src.holder obj) dst.holder
    (true, { dst with toOpDesc := op, attrs := obj.attrMap.getD [] }.setOpdescInputOutputFormat)

end

/-! ## Dynamic ports -/

/-- `CheckDynamicInfo`. -/
def checkDynamicInfo (dynamicNameAttrValue : List DynamicInputOutputInfo) : Bool :=
  let kMaxNameLength : Int := 1048576
  dynamicNameAttrValue.all fun info =>
    !(info.portNameLen = 0 || kMaxNameLength < info.portNameLen || info.attrNameLen = 0 || kMaxNameLength < info.attrNameLen) &&
      (info.portName.utf8ByteSize : Int) = info.portNameLen && (info.attrName.utf8ByteSize : Int) = info.attrNameLen

/-- `GetDynamicTensorNum`, of an attribute that is there: the length of a list of types, or an integer. -/
def getDynamicTensorNum (op : MappedOp M) (attrName : String) : Nat :=
  match (op.attrs.find attrName).bind AutoMappingUtil.valueType with
  | some (.list .dataType) => (AttrUtils.get op.holder attrName (.list .dataType) []).2.length % 2 ^ 32
  | some (.one .int) => UInt32.toNat (AttrUtils.get op.holder attrName (.one .uint32) (0 : UInt32)).2
  | _ => 0

/-- The entries of `port_dynamic_info`: the ports whose attributes are there. -/
def portDynamicInfo (op : MappedOp M) (dynamicNameAttrs : List DynamicInputOutputInfo) : OrderedMap String DynamicInfo :=
  dynamicNameAttrs.foldl (fun info d =>
    if op.hasAttr d.attrName then info.assign d.portName ⟨d.type, 0, op.getDynamicTensorNum d.attrName⟩ else info) []

/-- The loop of `UpdateDynamicInputOutPutIndex` over the names of ports. A port that is not among the entries counts as one. -/
def updateIndex : List String → (index increment : Nat) → OrderedMap String DynamicInfo → OrderedMap String DynamicInfo
  | [], _, _, info => info
  | name :: names, index, increment, info =>
    match info.find name with
    | none => updateIndex names (index + 1) increment info
    | some port =>
      updateIndex names (index + 1) ((increment + if 0 < port.tensorNum then port.tensorNum - 1 else 0) % 2 ^ 32)
        (info.assign name { port with insetIndex := (index + increment) % 2 ^ 32 })

/-- `UpdateDynamicInputOutPutIndex`. -/
def updateDynamicInputOutPutIndex (op : MappedOp M) (dynamicNameAttrs : List DynamicInputOutputInfo) :
    OrderedMap String DynamicInfo :=
  updateIndex op.registerOutputName 0 0 (updateIndex op.registerInputName 0 0 (op.portDynamicInfo dynamicNameAttrs))

/-- What the descriptors of a port are put in with: whether all of them are, and what is left. -/
def addPort (port : String × DynamicInfo) (op : OpDesc) : Bool × OpDesc :=
  if port.2.tensorNum = 0 then (true, op)
  else
    match port.2.type with
    | .input => op.addInputDescMiddle port.1 port.2.tensorNum port.2.insetIndex
    | .output => op.addOutputDescMiddle port.1 port.2.tensorNum port.2.insetIndex
    | .invalid => (true, op)

/-- A sort of the ports by where they are put in. -/
abbrev PortSort := UnstableSort fun port : String × DynamicInfo => OrderDual.toDual port.2.insetIndex

/-- The last three steps of `AutoMappingByOpFnDynamic`: the indexes, the sort, and the loop, with what each port returned. -/
def addDynamicPorts (sort : PortSort) (dynamicNameAttrs : List DynamicInputOutputInfo) (op : MappedOp M) :
    List Bool × MappedOp M :=
  let ports := sort.sort (op.updateDynamicInputOutPutIndex dynamicNameAttrs)
  let r := ports.foldl (fun r port => let s := addPort port r.2; (r.1 ++ [s.1], s.2)) ([], op.toOpDesc)
  (r.1, { op with toOpDesc := r.2 })

/-- `AutoMappingByOpFnDynamic`. What the ports returned is not looked at. -/
def autoMappingByOpFnDynamic (namedAttrs : String → AttrHolder M → M.NamedAttrs) (sort : PortSort) (src op : MappedOp M)
    (dynamicNameAttrValue : List DynamicInputOutputInfo) : Bool × MappedOp M :=
  match autoMappingByOpFn namedAttrs src op with
  | (false, op) => (false, op)
  | (true, op) =>
    if !checkDynamicInfo dynamicNameAttrValue then (false, op) else (true, (addDynamicPorts sort dynamicNameAttrValue op).2)

end MappedOp

end Metadef
