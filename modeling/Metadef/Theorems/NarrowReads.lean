import Metadef.Theorems.AttrStore

/-!
# Narrowing reads of integers

`GetInt` and `GetListInt` refuse a stored integer above the range of the type they read into, but none below it. A read is exact
or refused when no integer is below the range, or one is above it.
-/

namespace Metadef

open List

variable {M : AttrMessages}

/-- The types narrower than the stored integers. -/
inductive NarrowInt
  | int32 | uint32
  deriving DecidableEq, Repr

namespace NarrowInt

def elem : NarrowInt → AttrElem
  | int32 => .int32
  | uint32 => .uint32

def least : NarrowInt → Int
  | int32 => -2147483648
  | uint32 => 0

def greatest : NarrowInt → Int
  | int32 => 2147483647
  | uint32 => 4294967295

theorem least_le_greatest (n : NarrowInt) : n.least ≤ n.greatest := by cases n <;> decide

/-- The integer a value of the type is. -/
def toInt : (n : NarrowInt) → n.elem.Val M → Int
  | int32, v => Int32.toInt v
  | uint32, v => UInt32.toNat v

/-- An integer lies in the range of the type. -/
def InRange (n : NarrowInt) (x : Int64) : Prop := n.least ≤ x.toInt ∧ x.toInt ≤ n.greatest

/-- A read succeeds if and only if every stored integer is in the range, and then gives the stored integers in order. -/
def ExactOrRefused (n : NarrowInt) (stored : List Int64) (read : Bool × List (n.elem.Val M)) : Prop :=
  (read.1 = true ↔ ∀ x ∈ stored, n.InRange x) ∧ (read.1 = true → read.2.map n.toInt = stored.map Int64.toInt)

/-- The integer of an attribute that holds one. -/
def storedInt (obj : AttrHolder M) (name : String) : Option Int64 := (obj.find name).bind (·.getValueCheckType .i)

/-- The integers of an attribute that holds a list of them. -/
def storedInts (obj : AttrHolder M) (name : String) : Option (List Int64) := (obj.find name).bind (·.getValueCheckListType .i)

/-- `AttrUtils::GetInt` and `GetListInt` into the type, and `SetListInt` from it. -/
def getInt (n : NarrowInt) (obj : AttrHolder M) (name : String) (value : n.elem.Val M) : Bool × n.elem.Val M :=
  AttrUtils.get obj name (.one n.elem) value

def getListInt (n : NarrowInt) (obj : AttrHolder M) (name : String) (value : List (n.elem.Val M)) :
    Bool × List (n.elem.Val M) :=
  AttrUtils.get obj name (.list n.elem) value

def setListInt (n : NarrowInt) (obj : AttrHolder M) (name : String) (value : List (n.elem.Val M)) : Bool × AttrHolder M :=
  AttrUtils.set obj name (.list n.elem) value

end NarrowInt

namespace NarrowReadsAux

open GeAttrValueImp AttrStoreAux NarrowInt

variable {n : NarrowInt} {x : Int64} {xs : List Int64}

/-- The message of a narrow integer, and back. -/
def message : (n : NarrowInt) → Int64 → n.elem.case.Msg M
  | .int32, x => x
  | .uint32, x => x

/-- The value a stored integer is converted to. -/
def convert : (n : NarrowInt) → Int64 → n.elem.Val M
  | .int32, x => x.toInt32
  | .uint32, x => x.toUInt64.toUInt32

theorem decode_message (n : NarrowInt) (x : Int64) : decode (M := M) n.elem (message n x) =
    if x.toInt > n.greatest then none else some (convert n x) := by
  cases n <;> rfl

/-- The conversion keeps an integer that is not too large if and only if it is not too small. -/
theorem toInt_convert (hhi : x.toInt ≤ n.greatest) : n.toInt (convert (M := M) n x) = x.toInt ↔ n.least ≤ x.toInt := by
  cases n with
  | int32 =>
    refine ⟨fun h => ?_, fun hlo => toInt_toInt32 hlo hhi⟩
    rw [← h]
    exact Int32.le_toInt _
  | uint32 =>
    refine ⟨fun h => ?_, fun hlo => toNat_toUInt32_toUInt64 hlo hhi⟩
    rw [← h]
    exact Int.natCast_nonneg _

/-- The loop of a list getter stops at an integer that is too large. -/
theorem mapM_decode (n : NarrowInt) : ∀ xs : List Int64, (xs.map (message n)).mapM (decode (M := M) n.elem) =
    if ∃ x ∈ xs, n.greatest < x.toInt then none else some (xs.map (convert n))
  | [] => by simp
  | x :: xs => by
    rw [map_cons, mapM_cons, decode_message, mapM_decode n xs]
    by_cases hx : n.greatest < x.toInt
    · simp [hx]
    · by_cases hxs : ∃ y ∈ xs, n.greatest < y.toInt
      · simp [hx, hxs]
      · simp [hx, hxs]

/-- What the conversion of a list gives, against the list. -/
theorem map_convert (hhi : ∀ x ∈ xs, x.toInt ≤ n.greatest) :
    (xs.map (convert (M := M) n)).map n.toInt = xs.map Int64.toInt ↔ ∀ x ∈ xs, n.least ≤ x.toInt := by
  rw [map_map]
  refine map_inj_left.trans (forall₂_congr fun x hx => ?_)
  exact toInt_convert (hhi x hx)

/-- A read that refuses the integers that are too large and converts the others. -/
theorem exactOrRefused_iff {read : Bool × List (n.elem.Val M)} (hok : read.1 = true ↔ ¬ ∃ x ∈ xs, n.greatest < x.toInt)
    (hread : read.1 = true → read.2 = xs.map (convert n)) :
    n.ExactOrRefused xs read ↔ (∃ x ∈ xs, n.greatest < x.toInt) ∨ ∀ x ∈ xs, n.least ≤ x.toInt := by
  by_cases hlarge : ∃ x ∈ xs, n.greatest < x.toInt
  · have hfail : ¬ read.1 = true := fun h => hok.mp h hlarge
    obtain ⟨x, hx, hgt⟩ := hlarge
    have hnot : ¬ ∀ x ∈ xs, n.InRange x := fun hall => absurd (hall x hx).2 (Int.not_le.mpr hgt)
    exact iff_of_true ⟨iff_of_false hfail hnot, fun h => absurd h hfail⟩ (.inl ⟨x, hx, hgt⟩)
  · have hhi : ∀ x ∈ xs, x.toInt ≤ n.greatest := fun x hx => Int.not_lt.mp fun h => hlarge ⟨x, hx, h⟩
    have htrue : read.1 = true := hok.mpr hlarge
    rw [or_iff_right hlarge, NarrowInt.ExactOrRefused, hread htrue, map_convert hhi]
    exact ⟨fun h => h.2 htrue, fun hlo => ⟨iff_of_true htrue fun x hx => ⟨hlo x hx, hhi x hx⟩, fun _ => hlo⟩⟩

section

variable {obj : AttrHolder M} {name : String} {a : AttrDef M}

theorem get_of_find {t : AttrType} (ha : obj.find name = some a) (out : t.Val M) :
    AttrUtils.get obj name t out = getValue t a (AttrUtils.clearFirst t out) := by
  unfold AttrHolder.find at ha
  rw [AttrUtils.get, ha]

/-- `GetInt`, where there is an integer. -/
theorem getInt_eq (hx : storedInt obj name = some x) (out : n.elem.Val M) :
    n.getInt obj name out = if n.greatest < x.toInt then (false, out) else (true, convert n x) := by
  obtain ⟨a, ha, hax⟩ := Option.bind_eq_some_iff.mp hx
  have hone : getOne n.elem a out = if n.greatest < x.toInt then (false, out) else (true, convert n x) := by
    have hmessage : a.getValueCheckType n.elem.case = some (message n x) := by cases n <;> exact hax
    have hhold : canHold n.elem out = true := by cases n <;> rfl
    rw [getOne, hmessage, hhold]
    simp only [decode_message, if_true]
    by_cases hlarge : n.greatest < x.toInt
    · simp only [if_pos hlarge]
    · simp only [if_neg hlarge]
  rw [← hone]
  exact (get_of_find (t := .one n.elem) ha out).trans (by cases n <;> rfl)

/-- `GetListInt`, where there is a list of integers. -/
theorem getListInt_eq (hxs : storedInts obj name = some xs) (out : List (n.elem.Val M)) :
    n.getListInt obj name out = if ∃ x ∈ xs, n.greatest < x.toInt then (false, []) else (true, xs.map (convert n)) := by
  obtain ⟨a, ha, hax⟩ := Option.bind_eq_some_iff.mp hxs
  have hlist : getNarrowList n.elem a =
      if ∃ x ∈ xs, n.greatest < x.toInt then (false, []) else (true, xs.map (convert n)) := by
    have hmessages : a.getValueCheckListType n.elem.case = some (xs.map (message n)) := by
      cases n <;> exact hax.trans (congrArg some (map_id xs).symm)
    rw [getNarrowList, hmessages]
    dsimp only
    rw [mapM_decode]
    by_cases hlarge : ∃ x ∈ xs, n.greatest < x.toInt
    · rw [if_pos hlarge, if_pos hlarge]
    · rw [if_neg hlarge, if_neg hlarge]
  rw [← hlist]
  exact (get_of_find (t := .list n.elem) ha out).trans (by cases n <;> rfl)

end

theorem inRange_toInt64 (v : Int32) : InRange .int32 v.toInt64 := by
  rw [InRange, Int32.toInt_toInt64]
  exact ⟨v.le_toInt, v.toInt_le⟩

theorem inRange_toUInt64 (v : UInt32) : InRange .uint32 v.toUInt64.toInt64 := by
  have hlt := v.toNat_lt
  rw [InRange, toInt_toInt64_toUInt64]
  exact ⟨Int.natCast_nonneg _, by simp only [greatest]; omega⟩

theorem toUInt32_toInt64 (v : UInt32) : v.toUInt64.toInt64.toUInt64.toUInt32 = v := by
  rw [UInt64.toUInt64_toInt64, UInt32.toUInt32_toUInt64]

/-- A narrow integer widened is in the range, and converted back to itself. -/
theorem encode_message (n : NarrowInt) (v : n.elem.Val M) :
    ∃ y, encode n.elem v = some (message n y) ∧ convert n y = v ∧ n.InRange y := by
  cases n with
  | int32 => exact ⟨Int32.toInt64 v, rfl, Int32.toInt32_toInt64 v, inRange_toInt64 v⟩
  | uint32 => exact ⟨(UInt32.toUInt64 v).toInt64, rfl, toUInt32_toInt64 v, inRange_toUInt64 v⟩

/-- The integers a list of narrow ones is stored as. -/
theorem mapM_encode (n : NarrowInt) : ∀ v : List (n.elem.Val M),
    ∃ ys : List Int64, v.mapM (encode n.elem) = some (ys.map (message n)) ∧ ys.map (convert (M := M) n) = v ∧ ∀ y ∈ ys, n.InRange y
  | [] => ⟨[], rfl, rfl, nofun⟩
  | v :: vs => by
    obtain ⟨y, hy, hconvert, hin⟩ := encode_message n v
    obtain ⟨ys, hys, hconverts, hins⟩ := mapM_encode n vs
    refine ⟨y :: ys, by rw [mapM_cons, hy, hys]; rfl, by rw [map_cons, hconvert, hconverts], ?_⟩
    exact forall_mem_cons.mpr ⟨hin, hins⟩

section

variable {obj : AttrHolder M} {name : String}

/-- `SetListInt` on a key that takes a list of integers, and on one that takes none. -/
theorem setValue_narrow (v : List (n.elem.Val M)) (a : AttrDef M) :
    ((setValue (.list n.elem) v a).1 = true ↔ (a.setValueCheckAndSetListType .i).isSome) ∧
      ((setValue (.list n.elem) v a).1 = true → ∃ ys : List Int64,
        (setValue (.list n.elem) v a).2.getValueCheckListType .i = some ys ∧ ys.map (convert n) = v ∧ ∀ y ∈ ys, n.InRange y) := by
  have hlist : setValue (.list n.elem) v a = setList n.elem v a := by cases n <;> rfl
  have hcase : n.elem.case = .i := by cases n <;> rfl
  obtain ⟨ys, hys, hconvert, hin⟩ := mapM_encode n v
  rw [hlist]
  cases hl : a.setValueCheckAndSetListType .i with
  | none =>
    rw [setList_of_not (by rw [hcase]; exact hl)]
    exact ⟨iff_of_false nofun nofun, nofun⟩
  | some l =>
    rw [setList_some (by rw [hcase]; exact hl) hys]
    refine ⟨iff_of_true rfl rfl, fun _ => ⟨ys, ?_, hconvert, hin⟩⟩
    refine (getValueCheckListType_list (l := { l with items := Function.update l.items n.elem.case (ys.map (message n)) })
      (checkList_eq_some hl).1).trans (congrArg some ?_)
    cases n with
    | int32 => exact (Function.update_self ValueCase.i _ l.items).trans (map_id ys)
    | uint32 => exact (Function.update_self ValueCase.i _ l.items).trans (map_id ys)

/-- `SetListInt` succeeds where the key takes a list of integers. -/
theorem setListInt_ok (v : List (n.elem.Val M)) : (n.setListInt obj name v).1 = true ↔
    obj.attrMap ≠ none ∧ (((obj.find name).getD .notSet).setValueCheckAndSetListType .i).isSome := by
  cases hm : obj.attrMap with
  | none =>
    have hset : n.setListInt obj name v = (false, obj) := by
      unfold setListInt AttrUtils.set
      rw [hm]
    rw [hset]
    exact iff_of_false nofun fun h => h.1 rfl
  | some m =>
    have hfirst : (n.setListInt obj name v).1 = (setValue (.list n.elem) v ((obj.find name).getD .notSet)).1 :=
      (set_find (t := .list n.elem) hm name v).1
    rw [hfirst, and_iff_right (Option.some_ne_none m)]
    exact (setValue_narrow v _).1

/-- A list that is set is read back. -/
theorem getListInt_setListInt {v : List (n.elem.Val M)} (hok : (n.setListInt obj name v).1 = true) (out : List (n.elem.Val M)) :
    n.getListInt (n.setListInt obj name v).2 name out = (true, v) := by
  cases hm : obj.attrMap with
  | none => exact absurd hm ((setListInt_ok v).mp hok).1
  | some m =>
    obtain ⟨hfirst, hfind⟩ := set_find hm name (t := .list n.elem) v
    obtain ⟨ys, hys, hconvert, hin⟩ := (setValue_narrow v _).2 (hfirst.symm.trans hok)
    have hstored : storedInts (n.setListInt obj name v).2 name = some ys := by
      rw [storedInts, show (n.setListInt obj name v).2.find name = _ from hfind name, if_pos rfl]
      exact hys
    have hsmall : ¬ ∃ y ∈ ys, n.greatest < y.toInt := fun ⟨y, hy, hgt⟩ => absurd (hin y hy).2 (Int.not_le.mpr hgt)
    rw [getListInt_eq hstored, if_neg hsmall, hconvert]

end

end NarrowReadsAux

open NarrowInt NarrowReadsAux in
/-- Reading a stored integer into a narrower type is exact or refused if and only if it is not below the range; reading a list is if
and only if none of its integers is, or one is above. A list that is set is always read back. -/
theorem narrowReads_iff (n : NarrowInt) (obj : AttrHolder M) (name : String) :
    (∀ x out, storedInt obj name = some x →
      (n.ExactOrRefused [x] ((n.getInt obj name out).1, [(n.getInt obj name out).2]) ↔ n.least ≤ x.toInt)) ∧
    (∀ xs out, storedInts obj name = some xs →
      (n.ExactOrRefused xs (n.getListInt obj name out) ↔
        (∃ x ∈ xs, n.greatest < x.toInt) ∨ ∀ x ∈ xs, n.least ≤ x.toInt)) ∧
    ∀ v out,
      ((n.setListInt obj name v).1 = true ↔
        obj.attrMap ≠ none ∧ (((obj.find name).getD .notSet).setValueCheckAndSetListType .i).isSome) ∧
      ((n.setListInt obj name v).1 = true → n.getListInt (n.setListInt obj name v).2 name out = (true, v)) := by
  refine ⟨fun x out hx => ?_, fun xs out hxs => ?_, fun v out => ⟨setListInt_ok v, fun h => getListInt_setListInt h out⟩⟩
  · rw [@exactOrRefused_iff _ n [x]]
    · simp only [mem_singleton, exists_eq_left, forall_eq]
      have := n.least_le_greatest
      omega
    · rw [getInt_eq hx]
      simp only [mem_singleton, exists_eq_left]
      split <;> simp_all
    · rw [getInt_eq hx]
      split <;> simp_all
  · rw [exactOrRefused_iff]
    · rw [getListInt_eq hxs]
      split <;> simp_all
    · rw [getListInt_eq hxs]
      split <;> simp_all

namespace NarrowReadsWitness

/-- An object with an attribute that holds an integer. -/
def holding (x : Int64) : AttrHolder AttrStoreWitness.messages := { attrMap := some [("k", .one .i x)] }

theorem narrowReads_iff_int32 : NarrowInt.int32.ExactOrRefused [-7]
    ((NarrowInt.int32.getInt (holding (-7)) "k" (0 : Int32)).1, [(NarrowInt.int32.getInt (holding (-7)) "k" (0 : Int32)).2]) :=
  ((narrowReads_iff .int32 (holding (-7)) "k").1 (-7) (0 : Int32) rfl).mpr (by decide)

/-- The integer -1 is read as the largest unsigned one. -/
theorem narrowReads_iff_false : ¬ ∀ (n : NarrowInt) (obj : AttrHolder AttrStoreWitness.messages) (name : String) (x : Int64)
    (out : n.elem.Val AttrStoreWitness.messages), NarrowInt.storedInt obj name = some x →
      n.ExactOrRefused [x] ((n.getInt obj name out).1, [(n.getInt obj name out).2]) := by
  intro h
  have hexact := (h .uint32 (holding (-1)) "k" (-1) (0 : UInt32) rfl).2 rfl
  exact absurd hexact (by decide)

end NarrowReadsWitness

end Metadef
