import Metadef.Theorems.NumericConstants
import Metadef.Theorems.StringTensors

/-!
# String constants

A constant of strings is laid out in a buffer that is freed, and its bytes are copied into the tensor with the addresses in its slots.
A tensor with a slot is not one that stands for itself.
-/

namespace Metadef

open List Option

variable {M : AttrMessages}

namespace TensorAssign

/-- The strings of a constant with so many elements: the only one, each at its place and empty ones behind them, or the content without
its first byte. -/
def constantStrings (tensor : TensorProto) (count : Nat) : List (List UInt8) :=
  (List.range count).map fun i =>
    match tensor.stringVal with
    | [] => tensor.tensorContent.drop 1
    | [str] => str
    | strs => strs.getD i []

end TensorAssign

/-- The data start with slots, and the slot of a string leads to where it is in them, with a zero behind it. -/
def GeTensorState.HoldsStrings (s : GeTensorState) (strs : List (List UInt8)) : Prop :=
  ∃ base bytes, s.dataAddress = some base ∧ s.getData = some bytes ∧ 8 * strs.length ≤ bytes.length ∧
    ∀ (i : Nat) (str : List UInt8), strs[i]? = some str → ∃ offset, addressOf ((bytes.drop (8 * i)).take 8) = base + offset ∧
      offset + (str.length + 1) ≤ bytes.length ∧ (bytes.drop offset).take (str.length + 1) = str ++ [0]

namespace TensorAssign

/-- No buffer of a size is where the tensor gets memory. -/
def NewApart (memory : MemAddr → Option (List UInt8)) (newArray : Nat → Option MemAddr) (place : Option MemAddr) : Prop :=
  ∀ size address, newArray size = some address → memory address = none ∧ address + size ≤ (2 : Nat) ^ 64 ∧
    ∀ a, place = some a → a + size ≤ address ∨ address + size ≤ a

/-- Nothing is written outside the buffer, and a tensor that is returned has its strings. -/
def KeepsStrings (tensor : TensorProto) (outcome : Option (Bool × Option (AssignedTensor M))) : Prop :=
  outcome ≠ none ∧ ∀ w, outcome = some (true, some w) →
    w.data.HoldsStrings (constantStrings tensor (elementCount tensor).toNat)

end TensorAssign

namespace StringConstantsAux

open TensorAssign NumericConstantsAux StringTensorAux GeTensorState

/-! ## The first slot -/

section

variable {memcpyS : Nat → Nat → Bool} {address : MemAddr} {strAt : Nat → Option (List UInt8)} {buff bytes new : List UInt8}

/-- A write leaves what is before it, and the length. -/
theorem writeAt_front {offset : Nat} (h : writeAt buff offset new = some bytes) {n : Nat} (hn : n ≤ offset) :
    bytes.take n = buff.take n ∧ bytes.length = buff.length ∧ offset + new.length ≤ buff.length := by
  unfold writeAt at h
  split at h
  next hle =>
    obtain rfl := Option.some.inj h
    refine ⟨?_, ?_, hle⟩
    · rw [append_assoc, take_append_of_le_length (by rw [length_take]; omega), take_take, Nat.min_eq_left hn]
    · simp only [length_append, length_take, length_drop]
      omega
  next => cases h

/-- The slots behind the first and the strings leave the first slot. -/
theorem storeSlots_front : ∀ {todo i rawData : Nat} {buff bytes : List UInt8}, 1 ≤ i → 8 ≤ rawData →
    storeSlots memcpyS address strAt todo i rawData buff = some bytes →
    bytes.take 8 = buff.take 8 ∧ bytes.length = buff.length
  | 0, _, _, _, _, _, _, h => by
    obtain rfl := Option.some.inj h
    exact ⟨rfl, rfl⟩
  | todo + 1, i, rawData, buff, bytes, hi, hraw, h => by
    unfold storeSlots at h
    obtain ⟨slotted, hslot, h⟩ := bind_eq_some_iff.mp h
    obtain ⟨hfront, hlen, -⟩ := writeAt_front hslot (n := 8) (by omega)
    rw [← hfront, ← hlen]
    split at h
    next => exact storeSlots_front (by omega) (by omega) h
    next =>
      obtain ⟨written, hwritten, h⟩ := bind_eq_some_iff.mp h
      obtain ⟨hrest, hrestLen⟩ := storeSlots_front (by omega) (by omega) h
      rw [hrest, hrestLen]
      split at hwritten
      · obtain ⟨hkept, hkeptLen, -⟩ := writeAt_front hwritten hraw
        exact ⟨hkept, hkeptLen⟩
      · obtain rfl := Option.some.inj hwritten
        exact ⟨rfl, rfl⟩

/-- The first slot leads into the buffer. -/
theorem storeSlots_first {todo total rawData : Nat} {str : List UInt8} (hstr : strAt 0 = some str)
    (hcopy : memcpyS (str.length + 1) (str.length + 1) = true) (hraw : 8 ≤ rawData) (hend : address + total ≤ (2 : Nat) ^ 64)
    (h : storeSlots memcpyS address strAt (todo + 1) 0 rawData (List.replicate total 0) = some bytes) :
    addressOf (bytes.take 8) = address + rawData ∧ rawData < total ∧ bytes.length = total := by
  unfold storeSlots at h
  obtain ⟨slotted, hslot, h⟩ := bind_eq_some_iff.mp h
  rw [hstr] at h
  dsimp only at h
  rw [if_pos hcopy] at h
  obtain ⟨written, hwritten, h⟩ := bind_eq_some_iff.mp h
  obtain ⟨hrest, hrestLen⟩ := storeSlots_front (by omega) (by omega) h
  obtain ⟨hkept, hkeptLen, hroom⟩ := writeAt_front hwritten hraw
  have hslotLen := (writeAt_front hslot (n := 0) (Nat.zero_le _)).2.1
  rw [length_append, hslotLen, length_replicate, length_singleton] at hroom
  have hbytes : bytes.take 8 = addressBytes (address + rawData) := by
    rw [hrest, hkept]
    unfold writeAt at hslot
    split at hslot
    next =>
      obtain rfl := Option.some.inj hslot
      rw [Nat.mul_zero, take_zero, nil_append]
      exact take_left' (addressBytes_length _)
    next => cases hslot
  refine ⟨?_, by omega, ?_⟩
  · rw [hbytes]
    exact addressOf_addressBytes ((Nat.add_lt_add_left (by omega) address).trans_le hend)
  · rw [hrestLen, hkeptLen, hslotLen, length_replicate]

end

/-! ## The data of the tensor -/

section

variable {memory : MemAddr → Option (List UInt8)} {place : Option MemAddr} {address : MemAddr} {bytes : List UInt8}

/-- The data of a new tensor are where memory is found for them, as many as in the buffer. -/
theorem setFromBuffer_place (hne : bytes ≠ []) : (setFromBuffer { memory } place address bytes).dataAddress = place ∧
      (setFromBuffer { memory } place address bytes).alignedPtr = place ∧
      (setFromBuffer { memory } place address bytes).length = bytes.length := by
  have hlen : bytes.length ≠ 0 := fun h => hne (length_eq_zero_iff.mp h)
  have hset : setDataAt (setBlock { memory } address (some bytes)) place (some bytes) =
      setTensorData (setBlock { memory } address (some bytes)) place bytes := rfl
  have hnew : (if (setBlock { memory } address (some bytes)).length ≠ bytes.length then none
      else (setBlock { memory } address (some bytes)).alignedPtr) = none := if_pos (Ne.symm hlen)
  have hdata : (setFromBuffer { memory } place address bytes).alignedPtr = place ∧
      (setFromBuffer { memory } place address bytes).length = bytes.length := by
    rw [setFromBuffer, hset, setTensorData, if_neg (by simpa using hne)]
    unfold mallocAlignedPtr
    rw [if_neg hlen, hnew]
    cases place <;> exact ⟨rfl, rfl⟩
  exact ⟨by rw [dataAddress, hdata.2, if_neg hlen, hdata.1], hdata⟩

/-- A tensor whose first slot leads into the buffer it was copied from does not have a string there. -/
theorem not_holdsStrings {strs : List (List UInt8)} {offset : Nat} (hmem : memory invalidData = none) (hnew : memory address = none)
    (hapart : ∀ a, place = some a → a + bytes.length ≤ address ∨ address + bytes.length ≤ a)
    (hfirst : addressOf (bytes.take 8) = address + offset) (hoffset : offset < bytes.length) (hstrs : 0 < strs.length) :
    ¬ (setFromBuffer { memory } place address bytes).HoldsStrings strs := by
  rintro ⟨base, stored, hbase, hstored, -, hslots⟩
  have hlen : bytes.length ≠ 0 := by omega
  have hne : bytes ≠ [] := fun h => hlen (length_eq_zero_iff.mpr h)
  obtain ⟨hdataAddress, haligned, hlength⟩ := @setFromBuffer_place memory place address bytes hne
  obtain rfl : place = some base := hdataAddress.symm.trans hbase
  have hplace : ∀ a, some base = some a → a ≠ address := by
    intro a ha heq
    subst heq
    have h := hapart a ha
    rcases h with h | h
    · exact hlen (Nat.eq_zero_of_not_pos fun hpos => absurd h (Nat.not_le.mpr (Nat.lt_add_of_pos_right hpos)))
    · exact hlen (Nat.eq_zero_of_not_pos fun hpos => absurd h (Nat.not_le.mpr (Nat.lt_add_of_pos_right hpos)))
  have hspec := @setFromBuffer_spec { memory } (some base) address bytes ⟨hmem, nofun, nofun⟩ hnew hplace hne
  rw [if_neg (by rintro ⟨⟨⟩⟩)] at hspec
  obtain ⟨-, rest, hrest⟩ := hspec base haligned (by rw [hlength]; exact hlen)
  rw [getData, hlength, if_neg hlen, haligned, bind_some, bytesAt, hrest, map_some, take_left] at hstored
  obtain rfl := Option.some.inj hstored
  obtain ⟨str, hstr⟩ : ∃ str, strs[0]? = some str := ⟨_, getElem?_eq_getElem hstrs⟩
  obtain ⟨inside, hslot, hroom, -⟩ := hslots 0 str hstr
  rw [Nat.mul_zero, drop_zero, hfirst] at hslot
  -- an address of the one block would be in the other
  rcases hapart base rfl with hbelow | habove
  · have hle : base + inside < address := (Nat.add_lt_add_left (by omega) base).trans_le hbelow
    rw [← hslot] at hle
    exact absurd hle (Nat.not_lt.mpr (Nat.le_add_right ..))
  · have hle : address + offset < base := (Nat.add_lt_add_left hoffset address).trans_le habove
    rw [hslot] at hle
    exact absurd hle (Nat.not_lt.mpr (Nat.le_add_right ..))

end

/-! ## Setting strings -/

section

variable {memcpyS : Nat → Nat → Bool} {newArray : Nat → Option MemAddr} {place : Option MemAddr} {tensor : TensorProto}
  {memory : MemAddr → Option (List UInt8)} {count : Int}

/-- A tensor that is copied from a buffer with slots does not have the strings. -/
theorem buffer_lost {strAt : Nat → Option (List UInt8)} {str : List UInt8} {todo total rawData : Nat} {strs : List (List UInt8)}
    {w : AssignedTensor M} (hmem : memory invalidData = none) (hnew : NewApart memory newArray place) (hstr : strAt 0 = some str)
    (hcopy : memcpyS (str.length + 1) (str.length + 1) = true) (hraw : 8 ≤ rawData) (hstrs : 0 < strs.length)
    (h : (match newArray total with
      | none => some (shaped memory tensor)
      | some address => (storeSlots memcpyS address strAt (todo + 1) 0 rawData (List.replicate total 0)).map fun bytes =>
          { shaped (M := M) memory tensor with data := (shaped (M := M) memory tensor).data.setFromBuffer place address bytes }) =
        some w) :
    w.attrs = {} ∧ ¬ w.data.HoldsStrings strs := by
  cases hbuff : newArray total with
  | none =>
    rw [hbuff] at h
    obtain rfl := Option.some.inj h
    refine ⟨rfl, ?_⟩
    rintro ⟨base, bytes, -, hbytes, hslots, -⟩
    obtain rfl : [] = bytes := Option.some.inj hbytes
    rw [length_nil] at hslots
    omega
  | some address =>
    rw [hbuff] at h
    obtain ⟨bytes, hbytes, rfl⟩ := map_eq_some_iff.mp h
    obtain ⟨hfree, hend, hapart⟩ := hnew total address hbuff
    obtain ⟨hfirst, hoffset, hlength⟩ := storeSlots_first hstr hcopy hraw hend hbytes
    refine ⟨rfl, ?_⟩
    rw [← hlength] at hapart hoffset
    exact not_holdsStrings hmem hfree hapart hfirst hoffset hstrs

theorem datatypeValSize_strings (htype : tensor.dtype = .one .string ∨ tensor.dtype = .ref .string) :
    datatypeValSize tensor = some tensor.stringVal.length := by
  rcases htype with htype | htype <;> simp [datatypeValSize, htype]

theorem setGeTensor_strings (htype : tensor.dtype = .one .string ∨ tensor.dtype = .ref .string)
    (hcount : countDims (dims tensor) 1 = some count) :
    setGeTensor (M := M) memcpyS newArray place tensor (some (newTensor memory)) =
      if tensor.stringVal ≠ [] then
        (getStringVal memcpyS newArray place tensor.stringVal count (shaped memory tensor)).map fun w =>
          let r := AttrUtils.set w.attrs "origin_element_num" (.one .int) (Int64.ofNat tensor.stringVal.length)
          (r.1, some { w with attrs := r.2 })
      else if tensor.tensorContent ≠ [] then
        (setStringContent memcpyS newArray place tensor.tensorContent (shaped memory tensor)).map fun w => (true, some w)
      else some (count = 0, some (shaped memory tensor)) := by
  have hdims : countDims (tensor.tensorShape.getD []) 1 = some count := hcount
  have hset : setGeTensorWeightData memcpyS newArray place tensor count (shaped (M := M) memory tensor) =
      getStringVal memcpyS newArray place tensor.stringVal count (shaped memory tensor) := by
    unfold setGeTensorWeightData
    rcases htype with htype | htype <;> rw [htype] <;> rfl
  have hcontent : setWeightData memcpyS newArray place tensor.dtype count tensor.tensorContent (shaped (M := M) memory tensor) =
      setStringContent memcpyS newArray place tensor.tensorContent (shaped memory tensor) := by
    rcases htype with htype | htype <;> rw [htype] <;> rfl
  unfold setGeTensor
  rw [datatypeValSize_strings htype]
  dsimp only
  rw [hdims]
  dsimp only
  by_cases hne : tensor.stringVal ≠ []
  · rw [if_pos (length_pos_iff.mpr hne), if_pos hne, ← hset]
    rfl
  · rw [if_neg (by simpa using hne), if_neg hne, ← hcontent]
    rfl

theorem constantStrings_length (n : Nat) : (constantStrings tensor n).length = n := by
  rw [constantStrings, length_map, length_range]

/-- The first string of a constant with elements is the first there is. -/
theorem head_mem_constantStrings {str : List UInt8} {strs : List (List UInt8)} (h : tensor.stringVal = str :: strs) (n : Nat) :
    str ∈ constantStrings tensor (n + 1) := by
  refine List.mem_map.mpr ⟨0, mem_range.mpr (Nat.succ_pos n), ?_⟩
  rw [h]
  cases strs <;> rfl

theorem content_mem_constantStrings (h : tensor.stringVal = []) (n : Nat) :
    tensor.tensorContent.drop 1 ∈ constantStrings tensor (n + 1) := by
  refine List.mem_map.mpr ⟨0, mem_range.mpr (Nat.succ_pos n), ?_⟩
  rw [h]

/-- Strings that are elements are lost. -/
theorem getStringVal_lost {str : List UInt8} {strs : List (List UInt8)} {n : Nat} {w : AssignedTensor M}
    (hmem : memory invalidData = none) (hnew : NewApart memory newArray place) (hval : tensor.stringVal = str :: strs)
    (hn : count.toNat = n + 1) (hcopy : memcpyS (str.length + 1) (str.length + 1) = true)
    (h : getStringVal memcpyS newArray place tensor.stringVal count (shaped memory tensor) = some w) :
    w.attrs = {} ∧ ¬ w.data.HoldsStrings (constantStrings tensor (n + 1)) := by
  unfold getStringVal at h
  dsimp only at h
  rw [hn] at h
  refine buffer_lost hmem hnew ?_ hcopy (by omega) (by rw [constantStrings_length]; omega) h
  rw [hval]
  exact ite_self _

/-- So is the one that is the content. -/
theorem setStringContent_lost {w : AssignedTensor M} (hmem : memory invalidData = none) (hnew : NewApart memory newArray place)
    (hcopy : memcpyS ((tensor.tensorContent.drop 1).length + 1) ((tensor.tensorContent.drop 1).length + 1) = true)
    (h : setStringContent memcpyS newArray place tensor.tensorContent (shaped memory tensor) = some w) :
    w.attrs = {} ∧ ¬ w.data.HoldsStrings (constantStrings tensor 1) := by
  have hcontent : (if tensor.tensorContent.length > 1 then tensor.tensorContent.drop 1 else []) = tensor.tensorContent.drop 1 := by
    split
    · rfl
    · exact (drop_eq_nil_iff.mpr (by omega)).symm
  unfold setStringContent at h
  rw [hcontent] at h
  exact buffer_lost hmem hnew rfl hcopy (Nat.le_refl 8) (by rw [constantStrings_length]; omega) h

/-- No elements are set to no data. -/
theorem getStringVal_zero (strs : List (List UInt8)) : ∃ w : AssignedTensor M,
    getStringVal memcpyS newArray place strs 0 (shaped memory tensor) = some w ∧ w.data.HoldsStrings [] := by
  have htotal : stringTotalSize strs 0 = 0 := by
    unfold stringTotalSize
    dsimp only
    split
    · rfl
    · have hmin : (if (0 : Int) > strs.length then (strs.length : Int) else 0) = 0 := if_neg (by omega)
      rw [hmin]
      rfl
  unfold getStringVal
  dsimp only
  rw [htotal]
  cases newArray 0 with
  | none => exact ⟨_, rfl, invalidData, [], rfl, rfl, Nat.le_refl _, nofun⟩
  | some address => exact ⟨_, rfl, invalidData, [], rfl, rfl, Nat.le_refl _, nofun⟩

end

end StringConstantsAux

open TensorAssign NumericConstantsAux StringConstantsAux in
/-- A constant of strings is kept if and only if it has no elements, or is refused. -/
theorem stringConstants_iff (memcpyS : Nat → Nat → Bool) (newArray : Nat → Option MemAddr) (place : Option MemAddr)
    (memory : MemAddr → Option (List UInt8)) (hmem : memory invalidData = none) (hnew : NewApart memory newArray place)
    (tensor : TensorProto) (htype : tensor.dtype = .one .string ∨ tensor.dtype = .ref .string)
    (hall : ∀ d ∈ dims tensor, 0 ≤ d.toInt) (hfit : elementCount tensor < 2 ^ 31)
    (hgiven : tensor.stringVal ≠ [] ∨ tensor.tensorContent ≠ [] ∧ elementCount tensor = 1)
    (hcopy : ∀ str ∈ constantStrings tensor (elementCount tensor).toNat, memcpyS (str.length + 1) (str.length + 1) = true) :
    KeepsStrings tensor (setGeTensor (M := M) memcpyS newArray place tensor (some (newTensor memory))) ↔
      countDims (dims tensor) 1 = none ∨ elementCount tensor = 0 := by
  cases hdims : countDims (dims tensor) 1 with
  | none =>
    refine iff_of_true ?_ (Or.inl rfl)
    rw [setGeTensor_refused (datatypeValSize_strings htype) hdims]
    exact ⟨some_ne_none _, fun w hw => nomatch (Prod.ext_iff.mp (Option.some.inj hw)).1⟩
  | some count =>
    obtain ⟨-, hcount⟩ := countDims_some 1 hdims
    rw [Int.one_mul] at hcount
    obtain rfl := count_eq hcount (elementCount_nonneg hall) hfit
    rw [or_iff_right (some_ne_none _), setGeTensor_strings htype hdims]
    by_cases hzero : elementCount tensor = 0
    · refine iff_of_true ?_ hzero
      have hne : tensor.stringVal ≠ [] := hgiven.resolve_right fun h => by omega
      obtain ⟨w, hw, hholds⟩ := @getStringVal_zero M memcpyS newArray place tensor memory tensor.stringVal
      rw [if_pos hne, hzero, hw]
      refine ⟨some_ne_none _, fun w' hw' => ?_⟩
      obtain rfl := Option.some.inj (Prod.ext_iff.mp (Option.some.inj hw')).2
      rw [hzero]
      exact hholds
    · refine iff_of_false ?_ hzero
      rintro ⟨hdone, hkept⟩
      obtain ⟨n, hn⟩ : ∃ n, (elementCount tensor).toNat = n + 1 :=
        Nat.exists_eq_succ_of_ne_zero (by have := elementCount_nonneg hall; omega)
      rw [hn] at hcopy hkept
      cases hval : tensor.stringVal with
      | nil =>
        obtain ⟨hcontent, hone⟩ := hgiven.resolve_left (not_not.mpr hval)
        obtain rfl : n = 0 := by omega
        rw [hval, if_neg (not_not.mpr rfl), if_pos hcontent] at hdone hkept
        obtain ⟨outcome, houtcome⟩ := ne_none_iff_exists'.mp hdone
        obtain ⟨w, hw, -⟩ := map_eq_some_iff.mp houtcome
        rw [hw] at hkept
        exact (setStringContent_lost hmem hnew (hcopy _ (content_mem_constantStrings hval 0)) hw).2 (hkept w rfl)
      | cons str strs =>
        rw [if_pos (by rw [hval]; exact cons_ne_nil _ _)] at hdone hkept
        obtain ⟨outcome, houtcome⟩ := ne_none_iff_exists'.mp hdone
        obtain ⟨w, hw, -⟩ := map_eq_some_iff.mp houtcome
        rw [hw] at hkept
        obtain ⟨hattrs, hlost⟩ := getStringVal_lost hmem hnew hval hn (hcopy _ (head_mem_constantStrings hval n)) hw
        rw [map_some, hattrs] at hkept
        exact hlost (hkept { w with attrs := (AttrUtils.set (M := M) {} "origin_element_num" (.one .int) _).2 } rfl)

namespace StringConstantsWitness

open TensorAssign

/-- One string of two bytes. -/
def one : TensorProto := { dtype := .one .string, stringVal := [[97, 98]] }

/-- The buffer is at 4096 and the tensor gets memory at 8192. -/
def newArray (size : Nat) : Option MemAddr := if size ≤ 1024 then some 4096 else none

theorem newApart : NewApart (fun _ => none) newArray (some 8192) := by
  intro size address h
  unfold newArray at h
  split at h
  next hsize =>
    obtain rfl := Option.some.inj h
    have hend : 4096 + size ≤ 8192 := by omega
    exact ⟨rfl, hend.trans (by decide), fun a ha => Or.inr (by rw [← Option.some.inj ha]; exact hend)⟩
  next => cases h

theorem stringConstants_one : KeepsStrings one (setGeTensor (M := .trivial) (fun left size => size ≤ left) newArray (some 8192) one
      (some (newTensor fun _ => none))) ↔
    countDims (dims one) 1 = none ∨ elementCount one = 0 :=
  stringConstants_iff _ _ _ _ rfl newApart one (Or.inl rfl) nofun (by decide) (Or.inl (by decide)) (by decide)

/-- It is returned, but its slot has the address 4104 of the buffer and the tensor is at 8192. -/
theorem stringConstants_false : ¬ KeepsStrings one (setGeTensor (M := .trivial) (fun left size => size ≤ left) newArray (some 8192) one
    (some (newTensor fun _ => none))) := by
  intro h
  obtain ⟨base, bytes, hbase, hbytes, -, hslots⟩ := h.2 _ rfl
  obtain ⟨offset, hslot, -⟩ := hslots 0 [97, 98] rfl
  cases hbase
  cases hbytes
  have hvalue : (4104 : Nat) = 8192 + offset := hslot
  omega

end StringConstantsWitness

end Metadef
