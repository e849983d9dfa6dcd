import Metadef.TensorAssign
import Metadef.Theorems.DataKept

/-!
# Numeric constants

A tensor is set from the message of a constant. The number of elements is kept in 32 bits under a check against the bound of 64, and
the content is copied by that number whatever its length, of complex numbers the half. A conversion is exact or refused when nothing
of this comes to bear.
-/

namespace Metadef

open List Int

variable {M : AttrMessages}

namespace TfType

/-- A type of numbers or truth values. -/
def Numeric (t : TfType) : Prop := t ≠ .string ∧ t ≠ .resource ∧ t ≠ .variant

instance : DecidablePred Numeric := fun _ => inferInstanceAs (Decidable (_ ∧ _))

def IsComplex (t : TfType) : Prop := t = .complex64 ∨ t = .complex128

instance : DecidablePred IsComplex := fun _ => inferInstanceAs (Decidable (_ ∨ _))

end TfType

/-! ## What a constant stands for -/

namespace TensorAssign

/-- The number of bytes of an element. -/
def elementSize (t : TfType) : Nat := ((getDataTypeLength (geType t)).getD 0).toNat

/-- The fields of the message for a type, each in the bytes of its word. -/
def fields (t : TfType) (tensor : TensorProto) : List (List UInt8) :=
  match t with
  | .float => tensor.floatVal.map fun x => littleEndian 4 x.toNat
  | .double => tensor.doubleVal.map fun x => littleEndian 8 x.toNat
  | .int32 | .qint32 => tensor.intVal.map fun x => intBytes 4 x.toInt
  | .int16 | .uint16 | .qint16 | .quint16 => tensor.intVal.map fun x => intBytes 2 x.toInt
  | .int8 | .uint8 | .qint8 | .quint8 => tensor.intVal.map fun x => intBytes 1 x.toInt
  | .half | .bfloat16 => tensor.halfVal.map fun x => intBytes 2 x.toInt
  | .int64 => tensor.int64Val.map fun x => intBytes 8 x.toInt
  | .uint32 => tensor.uint32Val.map fun x => littleEndian 4 x.toNat
  | .uint64 => tensor.uint64Val.map fun x => littleEndian 8 x.toNat
  | .bool => tensor.boolVal.map fun x => [if x then 1 else 0]
  | .complex64 => tensor.scomplexVal.map fun x => littleEndian 4 x.toNat
  | .complex128 => tensor.dcomplexVal.map fun x => littleEndian 8 x.toNat
  | _ => []

/-- The real parts and the imaginary parts behind them. -/
def pairs : List (List UInt8) → List (List UInt8)
  | re :: im :: rest => (re ++ im) :: pairs rest
  | _ => []

/-- The typed values: of a complex number there are two fields. -/
def typedValues (t : TfType) (tensor : TensorProto) : List (List UInt8) :=
  if t.IsComplex then pairs (fields t tensor) else fields t tensor

/-- Values, the last of them again for each element behind it. -/
def padded {α : Type} (values : List α) (count : Nat) : Option (List α) :=
  (List.range count).mapM fun i => values[min i (values.length - 1)]?

def dims (tensor : TensorProto) : List Int64 := tensor.tensorShape.getD []

/-- The product of the dimensions. -/
def elementCount (tensor : TensorProto) : Int := ((dims tensor).map Int64.toInt).prod

/-- The constant makes no sense: a dimension is negative, the elements are too many, or they are not given. -/
def MustFail (tensor : TensorProto) (t : TfType) : Prop :=
  (∃ d ∈ dims tensor, d.toInt < 0) ∨ 2 ^ 31 ≤ elementCount tensor ∨
    fields t tensor = [] ∧ tensor.tensorContent.length ≠ elementCount tensor * elementSize t

/-- The bytes of the elements: those of the typed values, or else the content. -/
def elementBytes (tensor : TensorProto) (t : TfType) : Option (List UInt8) :=
  if fields t tensor = [] then some tensor.tensorContent
  else (padded (typedValues t tensor) (elementCount tensor).toNat).map List.flatten

/-- Nothing is read behind an end, and the constant is refused, or it makes sense and the tensor holds its elements. -/
def ConvertsExactly (tensor : TensorProto) (t : TfType) (outcome : Option (Bool × Option (AssignedTensor M))) : Prop :=
  ∃ ok weight, outcome = some (ok, weight) ∧
    (ok = true → ¬ MustFail tensor t ∧ ∃ w bytes, weight = some w ∧ w.data.getData = some bytes ∧
      elementBytes tensor t = some bytes)

/-- A new tensor in a memory. -/
def newTensor (memory : MemAddr → Option (List UInt8)) : AssignedTensor M := { data := { memory } }

/-- The dimensions are refused; or the elements fit into 32 bits and memory is found for them, there are none of them or they are
no complex numbers, and the content is as long as they are. Where nothing is given, there are no elements, or not such a number of
them that 32 bits tell it from none. -/
def Converts (newArray : Nat → Option MemAddr) (place : Option MemAddr) (tensor : TensorProto) (t : TfType) : Prop :=
  countDims (dims tensor) 1 = none ∨
    if fields t tensor ≠ [] then
      elementCount tensor < 2 ^ 31 ∧ (elementCount tensor = 0 ∨
        ¬ t.IsComplex ∧ newArray ((elementCount tensor).toNat * elementSize t) ≠ none ∧ place ≠ none)
    else if tensor.tensorContent ≠ [] then
      elementCount tensor < 2 ^ 31 ∧ ¬ t.IsComplex ∧ tensor.tensorContent.length = elementCount tensor * elementSize t ∧ place ≠ none
    else elementCount tensor = 0 ∨ ¬ 2 ^ 32 ∣ elementCount tensor

end TensorAssign

namespace NumericConstantsAux

open TensorAssign

/-! ## Counting elements -/

/-- The count is the product in 32 bits. -/
theorem countDims_some : ∀ {dims : List Int64} (start : Int) {count : Int}, countDims dims (start.bmod (2 ^ 32)) = some count →
    (∀ d ∈ dims, 0 ≤ d.toInt) ∧ count = (start * (dims.map Int64.toInt).prod).bmod (2 ^ 32)
  | [], start, count, h => by
    obtain rfl := Option.some.inj h
    exact ⟨nofun, by simp⟩
  | dim :: dims, start, count, h => by
    unfold countDims at h
    split at h
    next => cases h
    next hdim =>
      split at h
      next => cases h
      next =>
        rw [bmod_mul_bmod] at h
        obtain ⟨hdims, rfl⟩ := countDims_some _ h
        refine ⟨forall_mem_cons.mpr ⟨Int.not_lt.mp hdim, hdims⟩, ?_⟩
        rw [map_cons, prod_cons, Int.mul_assoc]

theorem elementCount_nonneg {tensor : TensorProto} (h : ∀ d ∈ dims tensor, 0 ≤ d.toInt) : 0 ≤ elementCount tensor := by
  revert h
  unfold elementCount
  induction dims tensor with
  | nil => exact fun _ => Int.one_nonneg
  | cons d l ih =>
    intro h
    obtain ⟨hd, hl⟩ := forall_mem_cons.mp h
    rw [map_cons, prod_cons]
    exact Int.mul_nonneg hd (ih hl)

/-! ## Copying values -/

theorem mapM_range {α : Type} {f : Nat → Option α} {g : Nat → α} : ∀ {l : List Nat}, (∀ i ∈ l, f i = some (g i)) →
    l.mapM f = some (l.map g)
  | [], _ => rfl
  | i :: l, h => by
    obtain ⟨hi, hl⟩ := forall_mem_cons.mp h
    rw [mapM_cons, hi, mapM_range hl]
    rfl

/-- The value of an element. -/
def valueAt {α : Type} (values : List α) (h : 0 < values.length) (i : Nat) : α :=
  values.get ⟨min i (values.length - 1), by omega⟩

theorem padded_eq {α : Type} {values : List α} (h : 0 < values.length) (count : Nat) :
    padded values count = some ((List.range count).map (valueAt values h)) :=
  mapM_range fun _ _ => getElem?_eq_getElem _

/-- The elements that are copied are the values, padded. -/
theorem copyValues_eq {α : Type} {values : List α} (h : 0 < values.length) (count : Nat) :
    copyValues values count = some ((List.range count).map (valueAt values h)) := by
  rw [← padded_eq h]
  unfold copyValues
  dsimp only
  split
  next hone =>
    refine congrArg (fun f => (List.range count).mapM f) (funext fun i => ?_)
    rw [hone.2, Nat.sub_self, Nat.min_zero]
  next hmore =>
    rw [padded_eq h]
    refine mapM_range fun i hi => ?_
    rw [mem_range] at hi
    have hat : values[min i (values.length - 1)]? = some (valueAt values h i) := getElem?_eq_getElem _
    rw [← hat]
    by_cases hcount : count > values.length
    · rw [if_pos hcount]
      split
      · rw [Nat.min_eq_left (by omega)]
      · rw [Nat.min_eq_right (by omega)]
    · rw [if_neg hcount, if_pos hi, Nat.min_eq_left (by omega)]

/-! ## The types of numbers -/

section

variable {t : TfType} {tensor : TensorProto} {newArray : Nat → Option MemAddr} {place : Option MemAddr} {count : Int}
  {memcpyS : Nat → Nat → Bool} {weight : AssignedTensor M}

/-- The number of bytes of a field. -/
def fieldSize (t : TfType) : Nat := if t.IsComplex then elementSize t / 2 else elementSize t

theorem length_littleEndian (size n : Nat) : (littleEndian size n).length = size := by simp [littleEndian]

theorem length_of_mem_fields (hnum : t.Numeric) : ∀ x ∈ fields t tensor, x.length = fieldSize t := by
  cases t with
  | string => exact absurd rfl hnum.1
  | resource => exact absurd rfl hnum.2.1
  | variant => exact absurd rfl hnum.2.2
  | _ =>
    intro x hx
    obtain ⟨y, -, rfl⟩ := List.mem_map.mp hx
    first
      | exact length_littleEndian ..
      | rfl

theorem datatypeValSize_eq (htype : tensor.dtype = .one t ∨ tensor.dtype = .ref t) (hnum : t.Numeric) :
    datatypeValSize tensor = some (fields t tensor).length := by
  cases t with
  | string => exact absurd rfl hnum.1
  | resource => exact absurd rfl hnum.2.1
  | variant => exact absurd rfl hnum.2.2
  | _ =>
    rcases htype with htype | htype
    · simp [datatypeValSize, htype, fields]
    · simp [datatypeValSize, htype, fields]

/-- Values are copied as their bytes are. -/
theorem getVal_eq {α : Type} (buff : Option MemAddr) (bytes : α → List UInt8) {values : List α} (hne : values.map bytes ≠ []) :
    getVal buff place bytes values count weight = getVal buff place id (values.map bytes) count weight := by
  have hmap : 0 < (values.map bytes).length := length_pos_iff.mpr hne
  have hlen : 0 < values.length := by simpa using hmap
  have hsame : ((List.range count.toNat).map (valueAt (values.map bytes) hmap)).flatMap id =
      ((List.range count.toNat).map (valueAt values hlen)).flatMap bytes := by
    rw [flatMap_map, flatMap_map]
    refine congrArg (fun f => (List.range count.toNat).flatMap f) (funext fun i => ?_)
    simp [valueAt]
  unfold getVal
  rw [copyValues_eq hlen, copyValues_eq hmap, Option.map_some, Option.map_some, hsame]

theorem setGeTensorWeightData_eq (htype : tensor.dtype = .one t ∨ tensor.dtype = .ref t) (hnum : t.Numeric)
    (hne : fields t tensor ≠ []) : setGeTensorWeightData memcpyS newArray place tensor count weight =
      getVal (newArray (count.toNat * fieldSize t)) place id (fields t tensor) count weight := by
  cases t with
  | string => exact absurd rfl hnum.1
  | resource => exact absurd rfl hnum.2.1
  | variant => exact absurd rfl hnum.2.2
  | _ =>
    refine Eq.trans ?_ (getVal_eq _ _ hne)
    rcases htype with htype | htype
    · unfold setGeTensorWeightData
      rw [htype]
      rfl
    · unfold setGeTensorWeightData
      rw [htype]
      rfl

theorem setWeightData_eq (htype : tensor.dtype = .one t ∨ tensor.dtype = .ref t) (hnum : t.Numeric) (content : List UInt8) :
    setWeightData memcpyS newArray place tensor.dtype count content weight =
      setContent place count (fieldSize t) content weight := by
  cases t with
  | string => exact absurd rfl hnum.1
  | resource => exact absurd rfl hnum.2.1
  | variant => exact absurd rfl hnum.2.2
  | _ =>
    rcases htype with htype | htype
    · rw [htype]
      rfl
    · rw [htype]
      rfl

end

/-! ## The data of a new tensor -/

open GeTensorState in
/-- A new tensor has the bytes it is given when memory is found for them. -/
theorem getData_setDataAt {memory : MemAddr → Option (List UInt8)} {place : Option MemAddr} (hmem : memory invalidData = none)
    (hplace : ∀ a, place = some a → a ≠ invalidData ∧ memory a = none) (bytes : List UInt8) :
    (setDataAt { memory } place (some bytes)).2.getData =
      if bytes = [] then some [] else if place = none then none else some bytes := by
  have hset : setDataAt { memory } place (some bytes) = setTensorData { memory } place bytes := rfl
  rw [hset]
  by_cases hempty : bytes = []
  · subst hempty
    rfl
  · rw [if_neg hempty]
    have hlen : bytes.length ≠ 0 := fun h => hempty (length_eq_zero_iff.mp h)
    have hnew : (if ({ memory } : GeTensorState).length ≠ bytes.length then none else ({ memory } : GeTensorState).alignedPtr) =
        none := if_pos (Ne.symm hlen)
    cases place with
    | none =>
      have hmalloc : mallocAlignedPtr { memory } none bytes.length =
          (false, { memory, length := bytes.length, alignedPtr := none }) := by
        unfold mallocAlignedPtr
        rw [if_neg hlen, hnew]
      rw [if_pos rfl, setTensorData, if_neg (by simpa using hempty), hmalloc]
      dsimp only
      rw [getData, if_neg hlen]
      rfl
    | some a =>
      rw [if_neg (Option.some_ne_none a)]
      have hwf : WellFormed { memory } :=
        ⟨hmem, fun _ hmsg => absurd hmsg.symm (Option.some_ne_none _), fun _ ha => absurd ha.symm (Option.some_ne_none _)⟩
      refine ((setTensorData_spec bytes hwf rfl hplace).2 ?_).bytes
      have hmalloc : (mallocAlignedPtr { memory } (some a) bytes.length).1 = true := by
        unfold mallocAlignedPtr
        rw [if_neg hlen, hnew]
      unfold setTensorData
      rw [if_neg (by simpa using hempty)]
      generalize mallocAlignedPtr { memory } (some a) bytes.length = r at hmalloc
      obtain ⟨ok, t⟩ := r
      obtain rfl : ok = true := hmalloc
      rfl

/-! ## Converting -/

section

variable {t : TfType} {tensor : TensorProto} {newArray : Nat → Option MemAddr} {place : Option MemAddr} {count : Int}
  {memcpyS : Nat → Nat → Bool} {memory : MemAddr → Option (List UInt8)}

/-- The tensor before its data are set. -/
def shaped (memory : MemAddr → Option (List UInt8)) (tensor : TensorProto) : AssignedTensor M :=
  { newTensor memory with shape := dims tensor }

/-- What a count of elements leads to: typed values, content, or nothing. -/
theorem setGeTensor_eq (htype : tensor.dtype = .one t ∨ tensor.dtype = .ref t) (hnum : t.Numeric)
    (hcount : countDims (dims tensor) 1 = some count) :
    setGeTensor (M := M) memcpyS newArray place tensor (some (newTensor memory)) =
      if fields t tensor ≠ [] then
        (getVal (newArray (count.toNat * fieldSize t)) place id (fields t tensor) count (shaped memory tensor)).map fun w =>
          let r := AttrUtils.set w.attrs "origin_element_num" (.one .int) (Int64.ofNat (fields t tensor).length)
          (r.1, some { w with attrs := r.2 })
      else if tensor.tensorContent ≠ [] then
        (setContent place count (fieldSize t) tensor.tensorContent (shaped memory tensor)).map fun w => (true, some w)
      else some (count = 0, some (shaped memory tensor)) := by
  have hdims : countDims (tensor.tensorShape.getD []) 1 = some count := hcount
  unfold setGeTensor
  rw [datatypeValSize_eq htype hnum]
  dsimp only
  rw [hdims]
  dsimp only
  by_cases hne : fields t tensor ≠ []
  · rw [if_pos (length_pos_iff.mpr hne), if_pos hne, setGeTensorWeightData_eq htype hnum hne]
    rfl
  · rw [if_neg (by simpa using hne), if_neg hne]
    split
    · rw [setWeightData_eq htype hnum]
      rfl
    · rfl

/-- Sizes of numbers: an element has a byte, and of a complex one a field is the half. -/
theorem sizes (hnum : t.Numeric) : 0 < fieldSize t ∧ fieldSize t ≤ 8 ∧
    elementSize t = if t.IsComplex then 2 * fieldSize t else fieldSize t := by
  revert hnum
  cases t <;> decide

theorem length_of_mem_pairs {size : Nat} : ∀ {l : List (List UInt8)}, (∀ x ∈ l, x.length = size) →
    ∀ x ∈ pairs l, x.length = 2 * size
  | [], _ => nofun
  | [_], _ => nofun
  | re :: im :: rest, h => by
    obtain ⟨hre, him, hrest⟩ := forall_mem_cons.mp h |>.imp_right forall_mem_cons.mp
    intro x hx
    rcases mem_cons.mp hx with rfl | hx
    · rw [length_append, hre, him]
      omega
    · exact length_of_mem_pairs hrest x hx

theorem length_of_mem_typedValues (hnum : t.Numeric) : ∀ x ∈ typedValues t tensor, x.length = elementSize t := by
  rw [(sizes hnum).2.2]
  unfold typedValues
  split
  · exact length_of_mem_pairs (length_of_mem_fields hnum)
  · exact length_of_mem_fields hnum

/-- As many values have as many bytes. -/
theorem length_flatten_valueAt {values : List (List UInt8)} (h : 0 < values.length) {size : Nat} (hsize : ∀ x ∈ values, x.length = size)
    (n : Nat) : ((List.range n).map (valueAt values h)).flatten.length = n * size := by
  rw [length_flatten, map_map, map_congr_left (g := fun _ => size)]
  · simp
  · exact fun i _ => hsize _ (get_mem ..)

theorem length_elementBytes (hnum : t.Numeric) (hne : fields t tensor ≠ []) (hpos : 0 < (elementCount tensor).toNat)
    {bytes : List UInt8} (h : elementBytes tensor t = some bytes) : bytes.length = (elementCount tensor).toNat * elementSize t := by
  rw [elementBytes, if_neg hne] at h
  obtain ⟨elements, helements, rfl⟩ := Option.map_eq_some_iff.mp h
  rcases Nat.eq_zero_or_pos (typedValues t tensor).length with hzero | hvalues
  · -- without a value there is no element
    obtain ⟨n, hn⟩ := Nat.exists_eq_succ_of_ne_zero hpos.ne'
    rw [padded, length_eq_zero_iff.mp hzero, hn, range_succ_eq_map, mapM_cons] at helements
    cases helements
  · rw [padded_eq hvalues] at helements
    obtain rfl := Option.some.inj helements
    exact length_flatten_valueAt hvalues (length_of_mem_typedValues hnum) _

theorem count_eq (hcount : count = (elementCount tensor).bmod (2 ^ 32)) (hnonneg : 0 ≤ elementCount tensor)
    (hfit : elementCount tensor < 2 ^ 31) : count = elementCount tensor := by
  rw [hcount]
  exact bmod_eq_of_le (by omega) (by omega)

/-- A tensor that is returned has to hold the elements of a constant that makes sense. -/
theorem convertsExactly_success {w : AssignedTensor M} : ConvertsExactly tensor t (some (true, some w)) ↔
    ¬ MustFail tensor t ∧ ∃ bytes, w.data.getData = some bytes ∧ elementBytes tensor t = some bytes := by
  constructor
  · rintro ⟨ok, weight, h, hok⟩
    obtain ⟨rfl, rfl⟩ := Prod.ext_iff.mp (Option.some.inj h)
    obtain ⟨hsense, w', bytes, hw, hdata, hbytes⟩ := hok rfl
    obtain rfl := Option.some.inj hw
    exact ⟨hsense, bytes, hdata, hbytes⟩
  · rintro ⟨hsense, bytes, hdata, hbytes⟩
    exact ⟨true, some w, rfl, fun _ => ⟨hsense, w, bytes, rfl, hdata, hbytes⟩⟩

/-- Given values, the data of the tensor are those that are copied. -/
theorem data_getVal (hmem : memory invalidData = none) (hplace : ∀ a, place = some a → a ≠ invalidData ∧ memory a = none)
    {buff : Option MemAddr} {values : List (List UInt8)} (h : 0 < values.length) :
    ∃ w : AssignedTensor M, getVal buff place id values count (shaped memory tensor) = some w ∧ w.attrs = {} ∧
      w.data.getData =
        if count < 0 ∨ buff = none then some []
        else
          let bytes := ((List.range count.toNat).map (valueAt values h)).flatten
          if bytes = [] then some [] else if place = none then none else some bytes := by
  unfold getVal
  by_cases hbuff : count < 0 ∨ buff = none
  · rw [if_pos hbuff, if_pos hbuff]
    exact ⟨_, rfl, rfl, rfl⟩
  · rw [if_neg hbuff, if_neg hbuff, copyValues_eq h]
    refine ⟨_, rfl, rfl, ?_⟩
    rw [← flatMap_id, ← getData_setDataAt hmem hplace]
    rfl

theorem sensible (hall : ∀ d ∈ dims tensor, 0 ≤ d.toInt) (hfit : elementCount tensor < 2 ^ 31)
    (hgiven : fields t tensor ≠ [] ∨ tensor.tensorContent.length = elementCount tensor * elementSize t) : ¬ MustFail tensor t := by
  rintro (⟨d, hd, hneg⟩ | hbig | ⟨hnone, hlength⟩)
  · exact absurd (hall d hd) (Int.not_le.mpr hneg)
  · exact absurd hfit (Int.not_lt.mpr hbig)
  · exact hgiven.elim (fun h => h hnone) fun h => hlength h

/-- As many values as there are elements are kept if they are none, or there is memory for them and they are no complex numbers. -/
theorem values_kept (hnum : t.Numeric) (hne : fields t tensor ≠ []) (hlen : 0 < (fields t tensor).length)
    (hnonneg : 0 ≤ elementCount tensor) :
    (∃ bytes, (if elementCount tensor < 0 ∨ newArray ((elementCount tensor).toNat * fieldSize t) = none then some []
        else
          let bytes := ((List.range (elementCount tensor).toNat).map (valueAt (fields t tensor) hlen)).flatten
          if bytes = [] then some [] else if place = none then none else some bytes) = some bytes ∧
        elementBytes tensor t = some bytes) ↔
      elementCount tensor = 0 ∨
        ¬ t.IsComplex ∧ newArray ((elementCount tensor).toNat * elementSize t) ≠ none ∧ place ≠ none := by
  obtain ⟨hsize, -, helement⟩ := sizes hnum
  rcases Nat.eq_zero_or_pos (elementCount tensor).toNat with hzero | hpos
  · have hnone : elementCount tensor = 0 := by omega
    refine iff_of_true ⟨[], ?_, ?_⟩ (Or.inl hnone)
    · rw [hzero]
      dsimp only [range_zero, map_nil, flatten_nil]
      simp
    · rw [elementBytes, if_neg hne, hzero]
      rfl
  · have hcopied := length_flatten_valueAt hlen (length_of_mem_fields hnum) (elementCount tensor).toNat
    have hfilled : ((List.range (elementCount tensor).toNat).map (valueAt (fields t tensor) hlen)).flatten ≠ [] := by
      rw [Ne, ← length_eq_zero_iff, hcopied]
      exact (Nat.mul_pos hpos hsize).ne'
    have hsome : elementCount tensor ≠ 0 := by omega
    rw [or_iff_right hsome]
    constructor
    · rintro ⟨bytes, hdata, hbytes⟩
      have hlength := length_elementBytes hnum hne hpos hbytes
      have hmul := Nat.mul_pos hpos hsize
      split at hdata
      next =>
        obtain rfl := Option.some.inj hdata
        rw [helement] at hlength
        split at hlength
        · rw [Nat.mul_left_comm] at hlength
          simp only [length_nil] at hlength
          omega
        · simp only [length_nil] at hlength
          omega
      next hbuff =>
        dsimp only at hdata
        rw [if_neg hfilled] at hdata
        split at hdata
        next => cases hdata
        next hplace =>
          obtain rfl := Option.some.inj hdata
          rw [hcopied, helement] at hlength
          have hreal : ¬ t.IsComplex := by
            intro hcomplex
            rw [if_pos hcomplex, Nat.mul_left_comm] at hlength
            omega
          rw [helement, if_neg hreal]
          exact ⟨hreal, fun h => hbuff (Or.inr h), hplace⟩
    · rintro ⟨hreal, hbuff, hplace⟩
      rw [helement, if_neg hreal] at hbuff
      refine ⟨((List.range (elementCount tensor).toNat).map (valueAt (fields t tensor) hlen)).flatten, ?_, ?_⟩
      · rw [if_neg (not_or.mpr ⟨Int.not_lt.mpr hnonneg, hbuff⟩)]
        dsimp only
        rw [if_neg hfilled, if_neg hplace]
      · rw [elementBytes, if_neg hne, typedValues, if_neg hreal, padded_eq hlen]
        rfl

/-- Typed values are copied exactly when they are elements, and there is memory for them. -/
theorem exact_values (hmem : memory invalidData = none) (hplace : ∀ a, place = some a → a ≠ invalidData ∧ memory a = none)
    (htype : tensor.dtype = .one t ∨ tensor.dtype = .ref t) (hnum : t.Numeric) (hne : fields t tensor ≠ [])
    (hdims : countDims (dims tensor) 1 = some count) (hall : ∀ d ∈ dims tensor, 0 ≤ d.toInt)
    (hcount : count = (elementCount tensor).bmod (2 ^ 32)) :
    ConvertsExactly tensor t (setGeTensor (M := M) memcpyS newArray place tensor (some (newTensor memory))) ↔
      elementCount tensor < 2 ^ 31 ∧ (elementCount tensor = 0 ∨
        ¬ t.IsComplex ∧ newArray ((elementCount tensor).toNat * elementSize t) ≠ none ∧ place ≠ none) := by
  have hlen : 0 < (fields t tensor).length := length_pos_iff.mpr hne
  have hnonneg := elementCount_nonneg hall
  obtain ⟨w, hw, hattrs, hdata⟩ :=
    @data_getVal M tensor place count memory hmem hplace (newArray (count.toNat * fieldSize t)) _ hlen
  rw [setGeTensor_eq htype hnum hdims, if_pos hne, hw, Option.map_some, hattrs]
  refine convertsExactly_success.trans ?_
  dsimp only
  rw [hdata]
  by_cases hfit : elementCount tensor < 2 ^ 31
  · obtain rfl := count_eq hcount hnonneg hfit
    exact (and_iff_right (sensible hall hfit (Or.inl hne))).trans ((values_kept hnum hne hlen hnonneg).trans (and_iff_right hfit).symm)
  · refine iff_of_false (fun h => h.1 (Or.inr (Or.inl (Int.not_lt.mp hfit)))) fun h => hfit h.1

/-- Content is copied exactly when it is as long as the elements, which are no complex numbers, and there is memory for it. -/
theorem exact_content (hmem : memory invalidData = none) (hplace : ∀ a, place = some a → a ≠ invalidData ∧ memory a = none)
    (htype : tensor.dtype = .one t ∨ tensor.dtype = .ref t) (hnum : t.Numeric) (hnone : fields t tensor = [])
    (hcontent : tensor.tensorContent ≠ []) (hdims : countDims (dims tensor) 1 = some count) (hall : ∀ d ∈ dims tensor, 0 ≤ d.toInt)
    (hcount : count = (elementCount tensor).bmod (2 ^ 32)) :
    ConvertsExactly tensor t (setGeTensor (M := M) memcpyS newArray place tensor (some (newTensor memory))) ↔
      elementCount tensor < 2 ^ 31 ∧ ¬ t.IsComplex ∧ tensor.tensorContent.length = elementCount tensor * elementSize t ∧
        place ≠ none := by
  obtain ⟨hsize, hsmall, helement⟩ := sizes hnum
  have hnonneg := elementCount_nonneg hall
  rw [setGeTensor_eq htype hnum hdims, if_neg (not_not.mpr hnone), if_pos hcontent]
  unfold setContent
  dsimp only
  by_cases hfit : elementCount tensor < 2 ^ 31
  · obtain rfl := count_eq hcount hnonneg hfit
    have hbytes : (elementCount tensor * fieldSize t % 2 ^ 64).toNat = (elementCount tensor).toNat * fieldSize t := by
      have hle : elementCount tensor * fieldSize t ≤ 2 ^ 31 * 8 :=
        Int.mul_le_mul hfit.le (by exact_mod_cast hsmall) (by positivity) (by decide)
      have hprod : 0 ≤ elementCount tensor * fieldSize t := by positivity
      rw [emod_eq_of_lt hprod (hle.trans_lt (by decide)), toNat_mul hnonneg (natCast_nonneg _), toNat_natCast]
    have hlength : tensor.tensorContent.length = elementCount tensor * elementSize t ↔
        tensor.tensorContent.length = (elementCount tensor).toNat * elementSize t := by
      conv_lhs => rw [← toNat_of_nonneg hnonneg]
      exact_mod_cast Iff.rfl
    have hpos := length_pos_iff.mpr hcontent
    rw [hbytes, and_iff_right hfit, hlength]
    split
    next hshort =>
      refine iff_of_false (fun ⟨_, _, h, _⟩ => nomatch h) fun ⟨hreal, hlong, _⟩ => ?_
      rw [helement, if_neg hreal] at hlong
      omega
    next hlong =>
      rw [Option.map_some]
      refine convertsExactly_success.trans ?_
      rw [show (shaped memory tensor : AssignedTensor M).data = { memory } from rfl, getData_setDataAt hmem hplace, elementBytes,
        if_pos hnone]
      constructor
      · rintro ⟨hsense, bytes, hdata, hbytes⟩
        obtain rfl := Option.some.inj hbytes
        have hwhole := hlength.mp (by_contra fun h => hsense (Or.inr (Or.inr ⟨hnone, h⟩)))
        split at hdata
        next => exact absurd (Option.some.inj hdata).symm hcontent
        next =>
          split at hdata
          next => cases hdata
          next hplace =>
            refine ⟨fun hcomplex => ?_, hwhole, hplace⟩
            -- half of the content is not all of it
            have hhalf := congrArg List.length (Option.some.inj hdata)
            rw [length_take, Nat.min_eq_left (Nat.not_lt.mp hlong)] at hhalf
            rw [helement, if_pos hcomplex, Nat.mul_left_comm] at hwhole
            omega
      · rintro ⟨hreal, hwhole, hplace⟩
        refine ⟨sensible hall hfit (Or.inr (hlength.mpr hwhole)), tensor.tensorContent, ?_, rfl⟩
        rw [helement, if_neg hreal] at hwhole
        rw [← hwhole, take_length, if_neg hcontent, if_neg hplace]
  · -- whatever is copied, a tensor is returned
    refine iff_of_false ?_ fun h => hfit h.1
    split
    next => exact fun ⟨_, _, h, _⟩ => nomatch h
    next =>
      rw [Option.map_some]
      exact fun h => (convertsExactly_success.mp h).1 (Or.inr (Or.inl (Int.not_lt.mp hfit)))

/-- Where nothing is given there have to be no elements. -/
theorem exact_nothing (htype : tensor.dtype = .one t ∨ tensor.dtype = .ref t) (hnum : t.Numeric) (hnone : fields t tensor = [])
    (hempty : tensor.tensorContent = []) (hdims : countDims (dims tensor) 1 = some count) (hall : ∀ d ∈ dims tensor, 0 ≤ d.toInt)
    (hcount : count = (elementCount tensor).bmod (2 ^ 32)) :
    ConvertsExactly tensor t (setGeTensor (M := M) memcpyS newArray place tensor (some (newTensor memory))) ↔
      elementCount tensor = 0 ∨ ¬ 2 ^ 32 ∣ elementCount tensor := by
  rw [setGeTensor_eq htype hnum hdims, if_neg (not_not.mpr hnone), if_neg (not_not.mpr hempty)]
  have htold : count = 0 ↔ 2 ^ 32 ∣ elementCount tensor := by
    rw [hcount]
    exact (dvd_iff_bmod_eq_zero ..).symm
  by_cases hzero : count = 0
  · rw [decide_eq_true hzero, convertsExactly_success]
    have hnonneg := elementCount_nonneg hall
    constructor
    · rintro ⟨hsense, -⟩
      refine Or.inl (by_contra fun hne => hsense (Or.inr (Or.inl ?_)))
      have hle := le_of_dvd (by omega) (htold.mp hzero)
      omega
    · intro h
      have hnothing : elementCount tensor = 0 := h.resolve_right (not_not.mpr (htold.mp hzero))
      refine ⟨sensible hall ?_ (Or.inr ?_), [], rfl, ?_⟩
      · rw [hnothing]
        decide
      · rw [hempty, hnothing, Int.zero_mul]
        rfl
      · rw [elementBytes, if_pos hnone, hempty]
  · rw [decide_eq_false hzero]
    exact iff_of_true ⟨false, _, rfl, nofun⟩ (Or.inr fun h => hzero (htold.mpr h))

/-- Dimensions that are refused leave the tensor as it was. -/
theorem setGeTensor_refused {size : Nat} (hsize : datatypeValSize tensor = some size) (hdims : countDims (dims tensor) 1 = none) :
    setGeTensor (M := M) memcpyS newArray place tensor (some (newTensor memory)) = some (false, some (newTensor memory)) := by
  have hdims' : countDims (tensor.tensorShape.getD []) 1 = none := hdims
  unfold setGeTensor
  rw [hsize]
  dsimp only
  rw [hdims']

end

end NumericConstantsAux

open TensorAssign NumericConstantsAux in
/-- The constant of a type of numbers is converted exactly or refused if and only if nothing of what loses elements comes to bear. -/
theorem numericConstants_iff (memcpyS : Nat → Nat → Bool) (newArray : Nat → Option MemAddr) (place : Option MemAddr)
    (memory : MemAddr → Option (List UInt8)) (hmem : memory invalidData = none)
    (hplace : ∀ a, place = some a → a ≠ invalidData ∧ memory a = none) (tensor : TensorProto) (t : TfType)
    (htype : tensor.dtype = .one t ∨ tensor.dtype = .ref t) (hnum : t.Numeric) :
    ConvertsExactly tensor t (setGeTensor (M := M) memcpyS newArray place tensor (some (newTensor memory))) ↔
      Converts newArray place tensor t := by
  unfold Converts
  cases hdims : countDims (dims tensor) 1 with
  | none =>
    refine iff_of_true ⟨false, _, setGeTensor_refused (datatypeValSize_eq htype hnum) hdims, nofun⟩ (Or.inl rfl)
  | some count =>
    obtain ⟨hall, hcount⟩ := countDims_some 1 hdims
    rw [Int.one_mul] at hcount
    rw [or_iff_right (Option.some_ne_none count)]
    split
    next hne => exact exact_values hmem hplace htype hnum hne hdims hall hcount
    next hnone =>
      rw [not_not] at hnone
      split
      next hcontent => exact exact_content hmem hplace htype hnum hnone hcontent hdims hall hcount
      next hempty => exact exact_nothing htype hnum hnone (not_not.mp hempty) hdims hall hcount

namespace NumericConstantsWitness

open TensorAssign

/-- Three elements with two values. -/
def three : TensorProto := { dtype := .one .int32, tensorShape := some [3], intVal := [5, 6] }

theorem numericConstants_three : ConvertsExactly three .int32
      (setGeTensor (M := .trivial) (fun _ _ => true) (fun _ => some 64) (some 64) three
        (some (newTensor fun _ => none))) ↔
    Converts (fun _ => some 64) (some 64) three .int32 :=
  numericConstants_iff _ _ _ _ rfl (fun a ha => ⟨by rw [← Option.some.inj ha]; decide, rfl⟩) three .int32 (Or.inl rfl) (by decide)

/-- Of these elements there are as many as 32 bits can not tell from none. -/
def square : TensorProto := { dtype := .one .int32, tensorShape := some [65536, 65536], intVal := [5, 6] }

/-- The product does not fit the counter, and a tensor without data is returned for a constant. -/
theorem numericConstants_false : ¬ ∀ (memcpyS : Nat → Nat → Bool) (newArray : Nat → Option MemAddr) (place : Option MemAddr)
    (memory : MemAddr → Option (List UInt8)), memory invalidData = none →
    (∀ a, place = some a → a ≠ invalidData ∧ memory a = none) → ∀ (tensor : TensorProto) (t : TfType),
    tensor.dtype = .one t ∨ tensor.dtype = .ref t → t.Numeric →
    ConvertsExactly tensor t
      (setGeTensor (M := .trivial) memcpyS newArray place tensor (some (newTensor memory))) := by
  intro h
  obtain ⟨ok, weight, houtcome, hok⟩ := h (fun _ _ => true) (fun _ => some 64) (some 64) (fun _ => none) rfl
    (fun a ha => ⟨by rw [← Option.some.inj ha]; decide, rfl⟩) square .int32 (Or.inl rfl) (by decide)
  have hsuccess : ok = true := (Prod.ext_iff.mp (Option.some.inj houtcome)).1.symm
  exact (hok hsuccess).1 (Or.inr (Or.inl (by decide)))

end NumericConstantsWitness

end Metadef
