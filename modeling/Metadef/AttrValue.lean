import Metadef.Lib.OrderedMap

/-!
# Attributes

The typed attribute store of `ge_attr_value.cc` and `attributes_holder.cc`. An attribute is a message with one of several
values; the setters and getters of `AttrUtils` check the type of the message before they write or read it.
-/

namespace Metadef

/-! ## Messages -/

/-- The messages attributes hold whole, and the two functions between graphs and their messages. -/
structure AttrMessages where
  TensorDescriptor : Type
  NamedAttrs : Type
  GraphDef : Type
  Graph : Type
  /-- The empty message, and that of a new tensor descriptor. -/
  emptyDescriptor : TensorDescriptor
  newDescriptor : TensorDescriptor
  emptyGraph : GraphDef
  /-- Adds a graph to a message, which it leaves half written when it fails. -/
  serializeGraph : Option Graph → GraphDef → Bool × GraphDef
  unserializeGraph : GraphDef → Option Graph

/-- Messages without content. -/
def AttrMessages.trivial : AttrMessages where
  TensorDescriptor := Unit
  NamedAttrs := Unit
  GraphDef := Unit
  Graph := Unit
  emptyDescriptor := ()
  newDescriptor := ()
  emptyGraph := ()
  serializeGraph _ _ := (false, ())
  unserializeGraph _ := none

variable (M : AttrMessages)

/-- The message of a tensor. -/
structure TensorDef where
  desc : M.TensorDescriptor
  data : List UInt8

/-- The values an attribute can have alone. The items of a list are of the same kinds, but for lists of integers. -/
inductive ValueCase
  | s | i | f | b | bt | func | td | t | g | listListInt | dt
  deriving DecidableEq, Repr

/-- The value of a kind. Floats are known by their bits. -/
def ValueCase.Msg : ValueCase → Type
  | s => String
  | i => Int64
  | f => UInt32
  | b => Bool
  | bt => List UInt8
  | func => M.NamedAttrs
  | td => M.TensorDescriptor
  | t => TensorDef M
  | g => M.GraphDef
  | listListInt => List (List Int64)
  | dt => Int64

/-- The message of a list: the kind of its items, when it has been set, and items of each kind. -/
structure ListValue where
  valType : Option ValueCase := none
  items : (c : ValueCase) → List (c.Msg M) := fun _ => []

/-- The message of an attribute. -/
inductive AttrDef
  | notSet
  | one (c : ValueCase) (x : c.Msg M)
  | list (l : ListValue M)

variable {M}

/-! ## Values -/

/-- A tensor, over a message or with a descriptor and data of its own. A descriptor may be a null pointer. -/
structure GeTensor (M : AttrMessages) where
  hasDef : Bool := false
  desc : Option M.TensorDescriptor
  data : List UInt8 := []

/-- A new tensor. -/
def GeTensor.new : GeTensor M := { desc := some M.newDescriptor }

/-- A buffer, over a message of its own or over a string of another. -/
structure Buffer where
  hasMsg : Bool := true
  data : List UInt8 := []

/-- The types of the values set and read alone and in lists. A narrow integer is widened when it is set; a tensor is given by
a pointer or as an object, which is as a pointer that is not null. -/
inductive AttrElem
  | int | int32 | uint32 | float | str | bool | tensorDesc | tensor | bytes | zeroCopyBytes | namedAttrs | graph | dataType
  deriving DecidableEq, Repr

/-- A value of a type. Tensors and graphs are pointers, and the objects over messages may have none. -/
def AttrElem.Val (M : AttrMessages) : AttrElem → Type
  | int => Int64
  | int32 => Int32
  | uint32 => UInt32
  | float => UInt32
  | str => String
  | bool => Bool
  | tensorDesc => Option M.TensorDescriptor
  | tensor => Option (GeTensor M)
  | bytes => Buffer
  | zeroCopyBytes => Buffer
  | namedAttrs => Option M.NamedAttrs
  | graph => Option M.Graph
  | dataType => Int32

/-- The kind of message a value is stored in. -/
def AttrElem.case : AttrElem → ValueCase
  | int => .i
  | int32 => .i
  | uint32 => .i
  | float => .f
  | str => .s
  | bool => .b
  | tensorDesc => .td
  | tensor => .t
  | bytes => .bt
  | zeroCopyBytes => .bt
  | namedAttrs => .func
  | graph => .g
  | dataType => .dt

/-- The types of values set and read. -/
inductive AttrType
  | one (e : AttrElem)
  | list (e : AttrElem)
  | listListInt
  deriving DecidableEq, Repr

def AttrType.Val (M : AttrMessages) : AttrType → Type
  | one e => e.Val M
  | list e => List (e.Val M)
  | listListInt => List (List Int64)

/-! ## Type checks -/

namespace AttrDef

/-- Which value is set: none, a list, or one of a kind. -/
def valueCase : AttrDef M → Option (Option ValueCase)
  | notSet => none
  | one c _ => some (some c)
  | list _ => some none

/-- `SetValueCheckType`. -/
def setValueCheckType (a : AttrDef M) (c : ValueCase) : Bool := a.valueCase = none || a.valueCase = some (some c)

/-- `SetValueCheckAndSetListType`: the list with the kind of its items set. -/
def setValueCheckAndSetListType (a : AttrDef M) (c : ValueCase) : Option (ListValue M) :=
  match a with
  | notSet => some { valType := some c }
  | one _ _ => none
  | list l => if l.valType ≠ none ∧ l.valType ≠ some c then none else some { l with valType := some c }

/-- `GetValueCheckType`, with the value. -/
def getValueCheckType (a : AttrDef M) (c : ValueCase) : Option (c.Msg M) :=
  match a with
  | one c' x => if h : c' = c then some (h ▸ x) else none
  | _ => none

/-- `GetValueCheckListType`, with the items. A list without a kind passes for one of items it has. -/
def getValueCheckListType (a : AttrDef M) (c : ValueCase) : Option (List (c.Msg M)) :=
  match a with
  | list l =>
    if l.valType = none then if 0 < (l.items c).length then some (l.items c) else none
    else if l.valType = some c then some (l.items c) else none
  | _ => none

/-- The tensor of an attribute, the empty one when it has another value or none. -/
def mutableT : AttrDef M → TensorDef M
  | one .t x => x
  | _ => { desc := M.emptyDescriptor, data := [] }

/-- The graph of an attribute, the empty one when it has another value or none. -/
def mutableG : AttrDef M → M.GraphDef
  | one .g x => x
  | _ => M.emptyGraph

end AttrDef

/-! ## Setting values -/

namespace GeAttrValueImp

open AttrDef

/-- The message of a tensor. One without a message keeps the descriptor there was where it has none itself. -/
def tensorDef (old : TensorDef M) (v : GeTensor M) : Option (TensorDef M) :=
  if v.hasDef then v.desc.map fun d => { desc := d, data := v.data }
  else some { desc := v.desc.getD old.desc, data := v.data }

/-- The message of a value, none where the setter fails on it. -/
def encode : (e : AttrElem) → e.Val M → Option (e.case.Msg M)
  | .int, v => some v
  | .int32, v => some (Int32.toInt64 v)
  | .uint32, v => some (UInt32.toUInt64 v).toInt64
  | .float, v => some v
  | .str, v => some v
  | .bool, v => some v
  | .tensorDesc, v => v
  | .tensor, v => Option.bind v (tensorDef { desc := M.emptyDescriptor, data := [] })
  | .bytes, v => some (Buffer.data v)
  | .zeroCopyBytes, v => if Buffer.hasMsg v then some (Buffer.data v) else none
  | .namedAttrs, v => v
  | .graph, v => if (M.serializeGraph v M.emptyGraph).1 then some (M.serializeGraph v M.emptyGraph).2 else none
  | .dataType, v => some (Int32.toInt64 v)

/-- `ATTR_VALUE_IMP_SET_ONE`, and the setters of single messages: the type is checked, then that there is a message. -/
def setOne (c : ValueCase) (x : Option (c.Msg M)) (a : AttrDef M) : Bool × AttrDef M :=
  if a.setValueCheckType c then
    match x with
    | none => (false, a)
    | some x => (true, .one c x)
  else (false, a)

/-- The setter of a tensor: a null pointer stands for a new tensor. -/
def setTensor (v : Option (GeTensor M)) (a : AttrDef M) : Bool × AttrDef M :=
  setOne .t (tensorDef a.mutableT (v.getD GeTensor.new)) a

/-- The setter of a graph: it is added to the message that is there, which is cleared on a failure. -/
def setGraph (v : Option M.Graph) (a : AttrDef M) : Bool × AttrDef M :=
  if a.setValueCheckType .g then
    if (M.serializeGraph v a.mutableG).1 then (true, .one .g (M.serializeGraph v a.mutableG).2) else (false, .notSet)
  else (false, a)

/-- `ATTR_VALUE_IMP_SET_LIST`, and the setters of lists of messages: the list is cleared when one of them is null. -/
def setList (e : AttrElem) (v : List (e.Val M)) (a : AttrDef M) : Bool × AttrDef M :=
  match a.setValueCheckAndSetListType e.case with
  | none => (false, a)
  | some l =>
    match v.mapM (encode e) with
    | none => (false, .notSet)
    | some xs => (true, .list { l with items := Function.update l.items e.case xs })

/-- `SetZeroCopyListBytes`: the buffers before one without a message stay in the list. -/
def setZeroCopyListBytes (v : List Buffer) (a : AttrDef M) : Bool × AttrDef M :=
  match a.setValueCheckAndSetListType .bt with
  | none => (false, a)
  | some l =>
    (v.all (·.hasMsg),
      .list { l with items := Function.update l.items .bt ((v.takeWhile (·.hasMsg)).map Buffer.data) })

/-- `SetValue`, by the type of the value. -/
def setValue : (t : AttrType) → t.Val M → AttrDef M → Bool × AttrDef M
  | .one .tensor, v, a => setTensor v a
  | .one .graph, v, a => setGraph v a
  | .one e, v, a => setOne e.case (encode e v) a
  | .list .zeroCopyBytes, v, a => setZeroCopyListBytes v a
  | .list e, v, a => setList e v a
  | .listListInt, v, a => setOne .listListInt (some v) a

/-! ## Reading values -/

/-- The value read from a message, none where the getter fails on it. -/
def decode : (e : AttrElem) → e.case.Msg M → Option (e.Val M)
  | .int, x => some x
  | .int32, x => if Int64.toInt x > 2147483647 then none else some (Int64.toInt32 x)
  | .uint32, x => if Int64.toInt x > 4294967295 then none else some (Int64.toUInt64 x).toUInt32
  | .float, x => some x
  | .str, x => some x
  | .bool, x => some x
  | .tensorDesc, x => some (some x)
  | .tensor, x => some (some { hasDef := true, desc := some (TensorDef.desc x), data := TensorDef.data x })
  | .bytes, x => some { data := x }
  | .zeroCopyBytes, x => some { hasMsg := true, data := x }
  | .namedAttrs, x => some (some x)
  | .graph, x => (M.unserializeGraph x).map some
  | .dataType, x => some (Int64.toInt32 x)

/-- Whether a message can be copied into what the argument held before: it cannot where that has a null pointer for it. -/
def canHold : (e : AttrElem) → e.Val M → Bool
  | .tensorDesc, out => Option.isSome out
  | .namedAttrs, out => Option.isSome out
  | _, _ => true

/-- `ATTR_VALUE_IMP_GET_ONE`, and the getters of single messages. A getter that fails leaves its argument. -/
def getOne (e : AttrElem) (a : AttrDef M) (out : e.Val M) : Bool × e.Val M :=
  match a.getValueCheckType e.case with
  | none => (false, out)
  | some x =>
    match if canHold e out then decode e x else none with
    | none => (false, out)
    | some v => (true, v)

/-- The loop over the items of a list, up to one the getter fails on. -/
def pushBack (e : AttrElem) : List (e.case.Msg M) → List (e.Val M) → Bool × List (e.Val M)
  | [], out => (true, out)
  | x :: xs, out =>
    match decode e x with
    | none => (false, out)
    | some v => pushBack e xs (out ++ [v])

/-- Whether the getter of a list clears its argument first. -/
def clears : AttrElem → Bool
  | .tensorDesc => false
  | .dataType => false
  | _ => true

/-- `ATTR_VALUE_IMP_GET_LIST`, and the getters of lists of messages. -/
def getList (e : AttrElem) (a : AttrDef M) (out : List (e.Val M)) : Bool × List (e.Val M) :=
  match a.getValueCheckListType e.case with
  | none => (false, if clears e then [] else out)
  | some xs => pushBack e xs (if clears e then [] else out)

/-- The getters of lists of narrow integers: no integer is given when one is too large. -/
def getNarrowList (e : AttrElem) (a : AttrDef M) : Bool × List (e.Val M) :=
  match a.getValueCheckListType e.case with
  | none => (false, [])
  | some xs =>
    match xs.mapM (decode e) with
    | none => (false, [])
    | some v => (true, v)

/-- `GetZeroCopyListBytes`: the buffers are over the strings of the list. -/
def getZeroCopyListBytes (a : AttrDef M) : Bool × List Buffer :=
  match a.getValueCheckListType .bt with
  | none => (false, [])
  | some xs => (true, xs.map fun x => { hasMsg := false, data := x })

/-- The getter of lists of lists clears its argument also when it fails. -/
def getListListInt (a : AttrDef M) : Bool × List (List Int64) :=
  match a.getValueCheckType .listListInt with
  | none => (false, [])
  | some x => (true, x)

/-- `GetValue`, by the type of the value. -/
def getValue : (t : AttrType) → AttrDef M → t.Val M → Bool × t.Val M
  | .one e, a, out => getOne e a out
  | .list .int32, a, _ => getNarrowList .int32 a
  | .list .uint32, a, _ => getNarrowList .uint32 a
  | .list .zeroCopyBytes, a, _ => getZeroCopyListBytes a
  | .list e, a, out => getList e a out
  | .listListInt, a, _ => getListListInt a

end GeAttrValueImp

/-! ## The store -/

variable (M) in
/-- An object with attributes, and their map when it has one. -/
structure AttrHolder where
  attrMap : Option (OrderedMap String (AttrDef M)) := some []

namespace AttrUtils

open GeAttrValueImp

/-- `AttrUtils::SetXxx`: the key is entered before the value is set. -/
def set (obj : AttrHolder M) (name : String) (t : AttrType) (value : t.Val M) : Bool × AttrHolder M :=
  match obj.attrMap with
  | none => (false, obj)
  | some m =>
    let r := setValue t value ((m.find name).getD .notSet)
    (r.1, { attrMap := some (m.assign name r.2) })

/-- What the getters of a type do to their argument before they look for the key. -/
def clearFirst : (t : AttrType) → t.Val M → t.Val M
  | .list .int32, _ => []
  | .list .uint32, _ => []
  | .list .tensor, _ => []
  | .list .zeroCopyBytes, _ => []
  | _, out => out

/-- `AttrUtils::GetXxx`. -/
def get (obj : AttrHolder M) (name : String) (t : AttrType) (value : t.Val M) : Bool × t.Val M :=
  match obj.attrMap.bind (·.find name) with
  | none => (false, clearFirst t value)
  | some a => getValue t a (clearFirst t value)

end AttrUtils

/-- `IsEmpty`: a value is also empty when it is a list without a kind. -/
def GeAttrValue.isEmpty : Option (AttrDef M) → Bool
  | none => true
  | some .notSet => true
  | some (.one _ _) => false
  | some (.list l) => l.valType = none

namespace AttrHolder

/-- `SetAttr`: a value that is there is replaced by one of its case. -/
def setAttr (obj : AttrHolder M) (name : String) (value : Option (AttrDef M)) : Bool × AttrHolder M :=
  if GeAttrValue.isEmpty value then (false, obj)
  else
    match obj.attrMap, value with
    | some m, some v =>
      if ((m.find name).getD .notSet).valueCase ≠ none ∧ ((m.find name).getD .notSet).valueCase ≠ v.valueCase then (false, obj)
      else (true, { attrMap := some (m.assign name v) })
    | _, _ => (false, obj)

/-- `DelAttr`. -/
def delAttr (obj : AttrHolder M) (name : String) : Bool × AttrHolder M :=
  match obj.attrMap with
  | none => (false, obj)
  | some m => if m.contains name then (true, { attrMap := some (m.erase name) }) else (false, obj)

end AttrHolder

end Metadef
