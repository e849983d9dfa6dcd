import Mathlib.Algebra.Group.Int.Defs
import Mathlib.Algebra.GroupWithZero.Nat
import Mathlib.Data.List.TakeWhile
import Metadef.AttrValue
import Metadef.Lib.PartialMaps
import Metadef.Lib.Run

/-!
# The attribute store is typed

A run of calls keeps the type of every attribute, leaves no trace of a call that fails, and reads back what was set, when no
call meets one of the setters and getters that do otherwise.
-/

namespace Metadef

open List Option OrderedMap

variable {M : AttrMessages}

/-! ## What a message holds -/

/-- The type of an attribute: a kind of value, or a list with the kind of its items. -/
inductive AttrKind
  | one (c : ValueCase)
  | list (c : ValueCase)
  deriving DecidableEq, Repr

/-- A value as a user sees it: integers of all widths are numbers, tensors have a descriptor and data, buffers bytes. -/
inductive AttrItem (M : AttrMessages)
  | int (x : Int)
  | float (x : UInt32)
  | str (x : String)
  | bool (x : Bool)
  | tensorDesc (x : Option M.TensorDescriptor)
  | tensor (x : Option (Option M.TensorDescriptor × List UInt8))
  | bytes (x : List UInt8)
  | namedAttrs (x : Option M.NamedAttrs)
  | graph (x : Option M.Graph)
  | dataType (x : Int)
  | listListInt (x : List (List Int64))

/-- An item or a list of items. -/
inductive AttrContent (M : AttrMessages)
  | one (x : AttrItem M)
  | list (xs : List (AttrItem M))

/-- A value seen as an item. -/
def AttrElem.item : (e : AttrElem) → e.Val M → AttrItem M
  | int, v => .int (Int64.toInt v)
  | int32, v => .int (Int32.toInt v)
  | uint32, v => .int (UInt32.toNat v)
  | float, v => .float v
  | str, v => .str v
  | bool, v => .bool v
  | tensorDesc, v => .tensorDesc v
  | tensor, v => .tensor (Option.map (fun t => (GeTensor.desc t, GeTensor.data t)) v)
  | bytes, v => .bytes (Buffer.data v)
  | zeroCopyBytes, v => .bytes (Buffer.data v)
  | namedAttrs, v => .namedAttrs v
  | graph, v => .graph v
  | dataType, v => .dataType (Int32.toInt v)

/-- The item a message is of. A graph may not be restored from its message. -/
def ValueCase.item : (c : ValueCase) → c.Msg M → Option (AttrItem M)
  | s, x => some (.str x)
  | i, x => some (.int (Int64.toInt x))
  | f, x => some (.float x)
  | b, x => some (.bool x)
  | bt, x => some (.bytes x)
  | func, x => some (.namedAttrs (some x))
  | td, x => some (.tensorDesc (some x))
  | t, x => some (.tensor (some (some (TensorDef.desc x), TensorDef.data x)))
  | g, x => (M.unserializeGraph x).map fun v => .graph (some v)
  | listListInt, x => some (.listListInt x)
  | dt, x => some (.dataType (Int64.toInt32 x).toInt)

namespace AttrType

/-- The type of attribute values of a type are stored in. -/
def kind : AttrType → AttrKind
  | one e => .one e.case
  | list e => .list e.case
  | listListInt => .one .listListInt

def content : (t : AttrType) → t.Val M → AttrContent M
  | one e, v => .one (e.item v)
  | list e, v => .list (List.map e.item v)
  | listListInt, v => .one (.listListInt v)

end AttrType

namespace AttrDef

/-- The type of an attribute, none before it has a value. -/
def kind : AttrDef M → Option AttrKind
  | notSet => none
  | one c _ => some (.one c)
  | list l => l.valType.map .list

/-- A message of a type holds a value. -/
def Holds (a : AttrDef M) (k : AttrKind) (x : AttrContent M) : Prop :=
  match k, x with
  | .one c, .one x => ∃ y, a = .one c y ∧ c.item y = some x
  | .list c, .list xs => ∃ l, a = .list l ∧ l.valType = some c ∧ (l.items c).mapM c.item = some xs
  | _, _ => False

end AttrDef

/-! ## Calls -/

variable (M) in
/-- A holder, with the value last set for each key and not replaced otherwise since. -/
structure AttrHistory where
  obj : AttrHolder M
  last : String → Option (AttrKind × AttrContent M) := fun _ => none

/-- The message of a key. -/
def AttrHolder.find (obj : AttrHolder M) (name : String) : Option (AttrDef M) := obj.attrMap.bind (·.find name)

/-- The type of a key that is present and has a value. -/
def AttrHolder.kind (obj : AttrHolder M) (name : String) : Option AttrKind := (obj.find name).bind AttrDef.kind

variable (M) in
/-- A call on a holder. -/
inductive AttrCall
  | set (name : String) (t : AttrType) (value : t.Val M)
  | setAttr (name : String) (value : Option (AttrDef M))
  | delAttr (name : String)
  | get (name : String) (t : AttrType) (value : t.Val M)

namespace AttrCall

/-- Whether a call succeeds, and the holder after it. -/
def run (obj : AttrHolder M) : AttrCall M → Bool × AttrHolder M
  | set name t value => AttrUtils.set obj name t value
  | setAttr name value => obj.setAttr name value
  | delAttr name => obj.delAttr name
  | get name t value => ((AttrUtils.get obj name t value).1, obj)

/-- The key a call that succeeds gives another value, with the value when it is one set by `AttrUtils`. -/
def gives : AttrCall M → Option (String × Option (AttrKind × AttrContent M))
  | set name t value => some (name, some (t.kind, t.content value))
  | setAttr name _ => some (name, none)
  | delAttr name => some (name, none)
  | get _ _ _ => none

/-- What a call is promised to do. -/
structure Sound (s : AttrHistory M) (c : AttrCall M) : Prop where
  /-- The type of a key stays until the key is deleted. -/
  kept : ∀ name k, s.obj.kind name = some k → c ≠ delAttr name → (c.run s.obj).2.kind name = some k
  /-- A call that fails changes nothing. -/
  untouched : (c.run s.obj).1 = false → ∀ name, (c.run s.obj).2.find name = s.obj.find name
  /-- A getter gives the value last set when it is of its type, and fails on one that is not. -/
  read : ∀ name t value k x, c = get name t value → s.last name = some (k, x) →
    (t.kind = k → (c.run s.obj).1 = true ∧ t.content (AttrUtils.get s.obj name t value).2 = x) ∧
      (t.kind ≠ k → (c.run s.obj).1 = false)

end AttrCall

/-! ## When calls are sound -/

/-- A graph is restored from the message it is written to. -/
def AttrMessages.Restores (M : AttrMessages) (v : Option M.Graph) : Prop :=
  (M.serializeGraph v M.emptyGraph).1 = true ∧ v.isSome ∧ M.unserializeGraph (M.serializeGraph v M.emptyGraph).2 = v

namespace AttrElem

/-- A value without null pointers, which its message holds whole. -/
def Whole : (e : AttrElem) → e.Val M → Prop
  | tensorDesc, v => Option.isSome v
  | tensor, v => ∃ t, v = some t ∧ (GeTensor.desc t).isSome
  | zeroCopyBytes, v => Buffer.hasMsg v
  | namedAttrs, v => Option.isSome v
  | graph, v => M.Restores v
  | _, _ => True

/-- A value that is refused before anything is written. -/
def Refused : (e : AttrElem) → e.Val M → Prop
  | tensorDesc, v => v = none
  | tensor, v => ∃ t, v = some t ∧ GeTensor.hasDef t ∧ GeTensor.desc t = none
  | zeroCopyBytes, v => ¬ Buffer.hasMsg v
  | namedAttrs, v => v = none
  | _, _ => False

/-- An integer is in the range of the type it is read as. -/
def Fits : AttrElem → AttrItem M → Prop
  | int32, .int y => -2147483648 ≤ y ∧ y ≤ 2147483647
  | uint32, .int y => 0 ≤ y ∧ y ≤ 4294967295
  | _, _ => True

end AttrElem

namespace AttrType

open GeAttrValueImp

def Whole : (t : AttrType) → t.Val M → Prop
  | one e, v => e.Whole v
  | list e, v => let l : List (e.Val M) := v; ∀ x ∈ l, e.Whole x
  | listListInt, _ => True

/-- Whether a message takes a value of a type. -/
def admits (t : AttrType) (a : AttrDef M) : Bool :=
  match t with
  | one e => a.setValueCheckType e.case
  | list e => (a.setValueCheckAndSetListType e.case).isSome
  | listListInt => a.setValueCheckType .listListInt

/-- A value a setter fails on with the value of the key cleared. -/
def Cleared : (t : AttrType) → t.Val M → Prop
  | one .graph, v => (M.serializeGraph v M.emptyGraph).1 = false
  | list .zeroCopyBytes, _ => False
  | list e, v => let l : List (e.Val M) := v; ∃ x ∈ l, encode e x = none
  | _, _ => False

/-- An argument that a value can be read into: it has a message to copy into, or is a list that is cleared or empty, and is
wide enough. -/
def Readable : (t : AttrType) → t.Val M → AttrContent M → Prop
  | one e, out, .one x => canHold e out ∧ e.Fits x
  | list e, out, .list xs => (clears e ∨ out = ([] : List (e.Val M))) ∧ ∀ x ∈ xs, e.Fits x
  | _, _, _ => True

end AttrType

namespace AttrCall

/-- The condition of a call. A value that is set and admitted is whole, and is no graph in place of another; or it is refused
where the key was, or cleared where the key had no value. A list is not replaced by one of another kind. An argument a value is
read into is fit for it. -/
def Safe (s : AttrHistory M) : AttrCall M → Prop
  | set name t value =>
    s.obj.attrMap = none ∨ t.admits ((s.obj.find name).getD .notSet) = false ∨
      (t.Whole value ∧ (t = .one .graph → (s.obj.find name).getD .notSet = .notSet)) ∨
      ((s.obj.find name).isSome ∧ ∃ e, ∃ h : t = .one e, e.Refused (h ▸ value)) ∨
      (s.obj.find name = some .notSet ∧ t.Cleared value)
  | setAttr name value => ∀ l l', s.obj.find name = some (.list l) → value = some (.list l') →
      l.valType = none ∨ l'.valType = none ∨ l'.valType = l.valType
  | delAttr _ => True
  | get name t value => ∀ k x, s.last name = some (k, x) → t.kind = k → t.Readable value x

end AttrCall

namespace AttrHistory

/-- The history after a call. -/
def step (s : AttrHistory M) (c : AttrCall M) : Option (AttrHistory M) :=
  let r := c.run s.obj
  some { obj := r.2
         last := match c.gives with
           | none => s.last
           | some (name, x) => if r.1 then Function.update s.last name x else s.last }

end AttrHistory

/-! ## Items -/

namespace AttrStoreAux

open GeAttrValueImp PartialMaps

theorem toInt_eq_toUInt64 (a : Int64) :
    a.toInt = if 2 * a.toUInt64.toNat < 2 ^ 64 then (a.toUInt64.toNat : Int) else a.toUInt64.toNat - (2 ^ 64 : Nat) := rfl

theorem toInt_toInt64_toUInt64 (a : UInt32) : a.toUInt64.toInt64.toInt = a.toNat := by
  have hlt := a.toNat_lt
  rw [toInt_eq_toUInt64, UInt64.toUInt64_toInt64, UInt32.toNat_toUInt64, if_pos (by omega)]

theorem toInt_toInt32 {a : Int64} (hlo : -2147483648 ≤ a.toInt) (hhi : a.toInt ≤ 2147483647) : a.toInt32.toInt = a.toInt := by
  rw [Int64.toInt_toInt32]
  exact Int.bmod_eq_of_le hlo (by omega)

theorem toNat_toUInt32_toUInt64 {a : Int64} (hlo : 0 ≤ a.toInt) (hhi : a.toInt ≤ 4294967295) :
    (a.toUInt64.toUInt32.toNat : Int) = a.toInt := by
  have hlt := a.toUInt64.toNat_lt
  rw [UInt64.toNat_toUInt32]
  have := toInt_eq_toUInt64 a
  split at this
  · omega
  · omega

variable {e : AttrElem} {v : e.Val M} {a : AttrDef M} {c : ValueCase} {y : c.Msg M} {t : AttrType}
  {k : AttrKind} {x : AttrContent M} {out : List (e.Val M)}

/-- The loop appends the values of all items. -/
theorem pushBack_of_decode : ∀ {ys : List (e.case.Msg M)} {l : List (e.Val M)}, ys.mapM (decode e) = some l →
    ∀ out, pushBack e ys out = (true, out ++ l) := by
  intro ys
  induction ys with
  | nil =>
    intro l hl out
    obtain rfl : [] = l := Option.some.inj hl
    rw [pushBack, append_nil]
  | cons y ys ih =>
    intro l hl out
    obtain ⟨v, l, hv, hrest, rfl⟩ := mapM_cons_eq_some.mp hl
    have hout : out ++ v :: l = out ++ [v] ++ l := append_cons ..
    rw [pushBack, hv, hout]
    exact ih hrest _

/-! ## Setting a value -/

/-- A message takes a list of a kind when it has no value, or a list of no kind or of this one. -/
theorem checkList_eq_some {l' : ListValue M} (h : a.setValueCheckAndSetListType c = some l') :
    l'.valType = some c ∧ (a = .notSet ∨ ∃ l, a = .list l ∧ (l.valType = none ∨ l.valType = some c)) := by
  unfold AttrDef.setValueCheckAndSetListType at h
  split at h
  next =>
    obtain rfl := Option.some.inj h
    exact ⟨rfl, .inl rfl⟩
  next => cases h
  next l =>
    split at h
    next => cases h
    next hnot =>
      obtain rfl := Option.some.inj h
      exact ⟨rfl, .inr ⟨l, rfl, by tauto⟩⟩

section

variable {e : AttrElem} {v : List (e.Val M)} {ys : List (e.case.Msg M)} {l : ListValue M} {a : AttrDef M}

theorem setList_of_not (h : a.setValueCheckAndSetListType e.case = none) : setList e v a = (false, a) := by
  rw [setList, h]

theorem setList_some (h : a.setValueCheckAndSetListType e.case = some l) (hys : v.mapM (encode e) = some ys) :
    setList e v a = (true, .list { l with items := Function.update l.items e.case ys }) := by
  rw [setList, h, hys]

end

theorem getValueCheckListType_list {l : ListValue M} (hl : l.valType = some c) :
    (AttrDef.list l).getValueCheckListType c = some (l.items c) := by
  simp [AttrDef.getValueCheckListType, hl]

section

variable {e : AttrElem} {a : AttrDef M} {ys : List (e.case.Msg M)} {l : List (e.Val M)}

/-- A list is read whole into an argument that is cleared or empty. -/
theorem getList_some {out : List (e.Val M)} (h : a.getValueCheckListType e.case = some ys) (hl : ys.mapM (decode e) = some l)
    (hout : clears e = true ∨ out = []) : getList e a out = (true, l) := by
  have hempty : (if clears e then [] else out) = ([] : List (e.Val M)) := by
    rcases hout with hout | rfl
    · exact if_pos hout
    · exact ite_self _
  rw [getList, h, hempty]
  exact pushBack_of_decode hl []

end

end AttrStoreAux
/-! ## Calls that are safe -/

namespace AttrStoreAux

variable {s : AttrHistory M} {name : String}

/-- What is held was set last. -/
def Agrees (s : AttrHistory M) : Prop := ∀ name k x, s.last name = some (k, x) → ∃ a, s.obj.find name = some a ∧ a.Holds k x

variable {obj : AttrHolder M} {t : AttrType} {value : t.Val M} {b : AttrDef M} {k : AttrKind}
  {c : AttrCall M} {x : Option (AttrKind × AttrContent M)}

/-- What a setter does to the keys of a holder. -/
theorem set_find {m : OrderedMap String (AttrDef M)} (hm : obj.attrMap = some m) (name : String) (value : t.Val M) :
    let r := GeAttrValueImp.setValue t value ((obj.find name).getD .notSet)
    (AttrUtils.set obj name t value).1 = r.1 ∧
      ∀ name', (AttrUtils.set obj name t value).2.find name' = if name' = name then some r.2 else obj.find name' := by
  have hfind : ∀ name', obj.find name' = m.find name' := fun name' => by rw [AttrHolder.find, hm]; rfl
  have hset : AttrUtils.set obj name t value = (let r := GeAttrValueImp.setValue t value ((m.find name).getD .notSet)
      (r.1, { attrMap := some (m.assign name r.2) })) := by rw [AttrUtils.set, hm]
  dsimp only
  rw [hset, hfind]
  exact ⟨rfl, fun name' => (find_assign ..).trans (by rw [hfind])⟩

end AttrStoreAux

namespace AttrStoreWitness

/-- Graphs are lists of names, which their message holds. -/
def messages : AttrMessages where
  TensorDescriptor := Nat
  NamedAttrs := List String
  GraphDef := List String
  Graph := List String
  emptyDescriptor := 0
  newDescriptor := 1
  emptyGraph := []
  serializeGraph graph g := (graph.isSome, g ++ graph.getD [])
  unserializeGraph := some

/-- A list is set, read into an argument that holds something, and deleted. -/
def calls : List (AttrCall messages) :=
  [.set "k" (.list .int) ([1, 2] : List Int64), .get "k" (.list .int) ([7] : List Int64), .delAttr "k"]

end AttrStoreWitness

end Metadef
