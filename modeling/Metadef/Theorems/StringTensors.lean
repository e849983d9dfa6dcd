import Metadef.Theorems.DataKept

/-!
# The slots of a tensor of strings

The buffer of a list of strings is laid out as it should be, and nothing is written outside it. Its slots hold addresses in the
buffer, and those are what the tensor gets: no slot leads to where the tensor has its own data.
-/

namespace Metadef

open List Option

namespace StringTensorAux

/-! ## Buffers -/

theorem addressBytes_length (address : Nat) : (addressBytes address).length = 8 := by simp [addressBytes]

variable {address : Nat} {old : List UInt8} {data : List (List UInt8)}

theorem addressOf_addressBytes (h : address < 2 ^ 64) : addressOf (addressBytes address) = address := by
  simp only [addressOf, addressBytes, List.range, List.range.loop, map_cons, map_nil, foldr_cons, foldr_nil,
    UInt8.toNat_ofNat', Nat.reducePow]
  omega

/-- A write in the middle of a buffer. -/
theorem writeAt_middle (pre : List UInt8) {new : List UInt8} (post : List UInt8) (h : old.length = new.length) :
    writeAt (pre ++ old ++ post) pre.length new = some (pre ++ new ++ post) := by
  have hle : pre.length + new.length ≤ (pre ++ old ++ post).length := by
    simp only [length_append]
    omega
  have htake : (pre ++ old ++ post).take pre.length = pre := by simp
  have hdrop : (pre ++ old ++ post).drop (pre.length + new.length) = post := by
    rw [← h, ← length_append, drop_left]
  rw [writeAt, if_pos hle, htake, hdrop]

/-! ## The loop over the strings -/

/-- The slots of strings that start at an offset, one behind the other. -/
def slots (address : Nat) : Nat → List (List UInt8) → List UInt8
  | _, [] => []
  | rawData, str :: rest => addressBytes (address + rawData) ++ slots address (rawData + (str.length + 1)) rest

theorem slots_length (address : Nat) (data : List (List UInt8)) (rawData : Nat) :
    (slots address rawData data).length = 8 * data.length := by
  induction data generalizing rawData with
  | nil => rfl
  | cons str rest ih =>
    rw [slots, length_append, addressBytes_length, ih, length_cons]
    omega

/-- The bytes of strings with a zero behind each. -/
def terminated (data : List (List UInt8)) : List UInt8 := data.flatMap (· ++ [0])

theorem terminated_length (data : List (List UInt8)) : (terminated data).length = (data.map fun str => str.length + 1).sum := by
  simp [terminated, length_flatMap]

theorem stringsSize_eq (data : List (List UInt8)) : stringsSize data = 8 * data.length + (terminated data).length := by
  rw [terminated_length, stringsSize]
  induction data with
  | nil => rfl
  | cons str rest ih =>
    simp only [map_cons, sum_cons, length_cons]
    omega

/-- What is left of the loop: the slots and the strings behind those that are there. `gap` is for the slots that are missing and
`tail` for the strings. -/
theorem storeStrings_rest (memcpyS : Nat → Nat → Bool) (address : Nat) (data : List (List UInt8)) :
    ∀ (i rawData : Nat) (pre gap strs tail : List UInt8), pre.length = 8 * i → gap.length = 8 * data.length →
      (pre ++ gap ++ strs).length = rawData → tail.length = (terminated data).length →
      (∃ buff, storeStrings memcpyS address (rawData + tail.length) data i rawData rawData (pre ++ gap ++ strs ++ tail) =
        some (false, buff)) ∨
      storeStrings memcpyS address (rawData + tail.length) data i rawData rawData (pre ++ gap ++ strs ++ tail) =
        some (true, pre ++ slots address rawData data ++ strs ++ terminated data) := by
  induction data with
  | nil =>
    intro i rawData pre gap strs tail _ hgap _ htail
    have hg : gap = [] := length_eq_zero_iff.mp hgap
    have ht : tail = [] := length_eq_zero_iff.mp htail
    subst hg ht
    exact .inr (by simp [storeStrings, slots, terminated])
  | cons str rest ih =>
    intro i rawData pre gap strs tail hpre hgap hraw htail
    have hgap8 : 8 ≤ gap.length := by simp only [hgap, length_cons]; omega
    have hterm : (terminated (str :: rest)).length = (str.length + 1) + (terminated rest).length := by
      rw [terminated_length, terminated_length, map_cons, sum_cons]
    obtain ⟨g, gap', rfl, hg⟩ : ∃ g gap', gap = g ++ gap' ∧ g.length = 8 :=
      ⟨gap.take 8, gap.drop 8, (take_append_drop 8 gap).symm, by simp [hgap8]⟩
    obtain ⟨old, tail', rfl, hold⟩ : ∃ old tail', tail = old ++ tail' ∧ old.length = str.length + 1 :=
      ⟨tail.take (str.length + 1), tail.drop (str.length + 1), (take_append_drop _ tail).symm, by simp; omega⟩
    -- the slot of the string, then the string
    have hslot : writeAt (pre ++ (g ++ gap') ++ strs ++ (old ++ tail')) (8 * i) (addressBytes (address + rawData)) =
        some (pre ++ addressBytes (address + rawData) ++ (gap' ++ strs ++ (old ++ tail'))) := by
      rw [← hpre]
      simpa using writeAt_middle pre (gap' ++ strs ++ (old ++ tail')) (hg.trans (addressBytes_length (address + rawData)).symm)
    have hstr : writeAt (pre ++ addressBytes (address + rawData) ++ (gap' ++ strs ++ (old ++ tail'))) rawData (str ++ [0]) =
        some ((pre ++ addressBytes (address + rawData)) ++ gap' ++ (strs ++ (str ++ [0])) ++ tail') := by
      have hlen : (pre ++ addressBytes (address + rawData) ++ gap' ++ strs).length = rawData := by
        rw [← hraw]
        simp only [length_append, addressBytes_length, hg]
        omega
      have hone : old.length = (str ++ [0]).length := by simp [hold]
      have h := writeAt_middle (pre ++ addressBytes (address + rawData) ++ gap' ++ strs) tail' hone
      rw [hlen] at h
      simpa using h
    have hnext := ih (i + 1) (rawData + (str.length + 1)) (pre ++ addressBytes (address + rawData)) gap' (strs ++ (str ++ [0])) tail'
      (by rw [length_append, addressBytes_length, hpre]; omega)
      (by simp only [length_append, length_cons, hg] at hgap; omega)
      (by
        rw [← hraw]
        simp only [length_append, addressBytes_length, hg, length_cons, length_nil]
        omega)
      (by simp only [length_append] at htail; omega)
    have htotal : rawData + (old ++ tail').length = rawData + (str.length + 1) + tail'.length := by
      rw [length_append, hold]
      omega
    rw [storeStrings, hslot, bind_some, if_neg (by omega)]
    cases hmem : memcpyS (rawData + (old ++ tail').length - rawData) (str.length + 1) with
    | false => exact .inl ⟨_, rfl⟩
    | true =>
      rw [if_neg (by decide), hstr, bind_some, htotal]
      refine hnext.imp id fun h => h.trans ?_
      simp [slots, terminated]

/-- The slot of a string holds where it starts. -/
theorem slots_slot (address : Nat) (data : List (List UInt8)) : ∀ (rawData i : Nat) (post : List UInt8), i < data.length →
    ((slots address rawData data ++ post).drop (8 * i)).take 8 =
      addressBytes (address + (rawData + ((data.take i).map fun str => str.length + 1).sum)) := by
  induction data with
  | nil => exact fun _ _ _ hi => absurd hi (Nat.not_lt_zero _)
  | cons str rest ih =>
    intro rawData i post hi
    have h8 := addressBytes_length (address + rawData)
    cases i with
    | zero =>
      rw [Nat.mul_zero, drop_zero, slots, append_assoc, ← h8, take_left]
      simp
    | succ i =>
      have hdrop : 8 * (i + 1) = (addressBytes (address + rawData)).length + 8 * i := by omega
      rw [slots, append_assoc, hdrop, ← drop_drop, drop_left, ih _ _ _ (Nat.lt_of_succ_lt_succ hi)]
      simp only [take_succ_cons, map_cons, sum_cons, Nat.add_assoc]

theorem stringOffset_lt {i : Nat} (hi : i < data.length) : stringOffset data i < stringsSize data := by
  rw [stringsSize_eq, terminated_length, stringOffset]
  have hsplit : (data.map fun str => str.length + 1).sum = ((data.take i).map fun str => str.length + 1).sum +
      ((data.drop i).map fun str => str.length + 1).sum := by
    rw [← sum_append, ← map_append, take_append_drop]
  rw [hsplit, drop_eq_getElem_cons hi, map_cons, sum_cons]
  omega

/-- Slots and strings are laid out for the address they were made for. -/
theorem layout_slots (h : address + stringsSize data ≤ 2 ^ 64) :
    StringLayout address data (slots address (8 * data.length) data ++ terminated data) := by
  refine ⟨?_, ?_, fun i hi => ?_⟩
  · rw [length_append, slots_length, stringsSize_eq]
  · exact drop_left' (slots_length address data _)
  · rw [slots_slot address data _ i _ hi]
    have hlt := stringOffset_lt hi
    exact addressOf_addressBytes (by rw [stringOffset] at hlt; omega)

/-! ## Bytes that come from a buffer -/

open GeTensorState

variable {s t : GeTensorState} {place : Option MemAddr} {address : MemAddr} {bytes : List UInt8}

/-- The data, where there are any, start with bytes and are not where the buffer of these is. -/
def Stored (t : GeTensorState) (address : MemAddr) (bytes : List UInt8) : Prop :=
  ∀ a, t.alignedPtr = some a → t.length ≠ 0 → a ≠ address ∧ ∃ rest, t.memory a = some (bytes ++ rest)

/-- Before the copy: what the tensor knows of is live, and so is the buffer, which is apart. -/
structure Apart (s : GeTensorState) (place : Option MemAddr) (address : MemAddr) : Prop where
  msg : ∀ msg, s.protoMsg = some msg → msg.address ≠ address ∧ s.memory msg.address ≠ none
  aligned : ∀ a, s.alignedPtr = some a → a ≠ address ∧ s.memory a ≠ none
  place : ∀ a, place = some a → a ≠ address

theorem memory_overwrite {a : MemAddr} (ha : s.memory a ≠ none) : ∃ rest, (s.overwrite a bytes).memory a = some (bytes ++ rest) := by
  obtain ⟨old, hold⟩ := ne_none_iff_exists'.mp ha
  refine ⟨old.drop bytes.length, ?_⟩
  rw [overwrite, hold, setBlock_memory_self]
  rfl

/-- The block that bytes are copied to is the tensor's, or a new one. -/
theorem stored_setTensorData (h : Apart s place address) (hne : bytes ≠ []) : Stored (s.setTensorData place bytes).2 address bytes := by
  have hlen : bytes.length ≠ 0 := fun h0 => hne (length_eq_zero_iff.mp h0)
  have hmalloc : ∀ a, (s.mallocAlignedPtr place bytes.length).2.alignedPtr = some a →
      a ≠ address ∧ (s.mallocAlignedPtr place bytes.length).2.memory a ≠ none := by
    unfold mallocAlignedPtr
    rw [if_neg hlen]
    split
    next _ b hkept =>
      have hb : s.alignedPtr = some b := by
        split at hkept
        · cases hkept
        · exact hkept
      rintro a ⟨⟩
      exact h.aligned b hb
    next b hkept =>
      rintro a ⟨⟩
      refine ⟨h.place b rfl, ?_⟩
      change (s.setBlock b _).memory b ≠ none
      rw [setBlock_memory_self]
      exact nofun
    next => exact nofun
  unfold setTensorData
  rw [if_neg (by simpa using hne)]
  generalize hr : s.mallocAlignedPtr place bytes.length = r at hmalloc
  obtain ⟨ok, t⟩ := r
  cases ok with
  | false =>
    have hnone : t.alignedPtr = none := by
      unfold mallocAlignedPtr at hr
      rw [if_neg hlen] at hr
      split at hr <;> cases hr
      rfl
    intro a ha
    exact absurd (hnone.symm.trans ha) nofun
  | true =>
    cases haligned : t.alignedPtr with
    | none =>
      intro a ha
      dsimp only at ha
      rw [haligned] at ha
      exact absurd (haligned.symm.trans ha) nofun
    | some b =>
      obtain ⟨hb, hmem⟩ := hmalloc b haligned
      intro a ha _
      dsimp only at ha ⊢
      rw [haligned] at ha ⊢
      cases haligned.symm.trans ha
      exact ⟨hb, memory_overwrite hmem⟩

/-- The string that bytes are assigned to is the message's, where it was or at a new place, and the tensor reads it there. -/
theorem stored_setData {msg : ProtoString} (h : Apart s place address) (howner : s.hasOwner = true) (hmsg : s.protoMsg = some msg) :
    Stored (s.setData place bytes).2 address bytes := by
  obtain ⟨msg', hmsg', haddr, hrest⟩ : ∃ msg', (s.setProtoData place bytes msg).protoMsg = some msg' ∧ msg'.address ≠ address ∧
      ∃ rest, (s.setProtoData place bytes msg).memory msg'.address = some (bytes ++ rest) := by
    cases place with
    | none =>
      obtain ⟨hne, hmem⟩ := h.msg msg hmsg
      obtain ⟨old, hold⟩ := ne_none_iff_exists'.mp hmem
      refine ⟨{ msg with size := bytes.length }, rfl, hne, 0 :: old.drop (bytes.length + 1), ?_⟩
      change (s.setBlock msg.address _).memory msg.address = _
      rw [setBlock_memory_self, hold]
      rfl
    | some a =>
      refine ⟨⟨a, bytes.length⟩, rfl, h.place a rfl, [0], ?_⟩
      exact setBlock_memory_self
  unfold setData
  rw [if_pos howner, hmsg]
  change Stored (s.setProtoData place bytes msg).buildAlignerPtrWithProtoData address bytes
  generalize s.setProtoData place bytes msg = t at hmsg' hrest
  unfold buildAlignerPtrWithProtoData
  rw [hmsg']
  intro a
  dsimp only
  split
  next hkept =>
    intro ha hlen
    rw [dataAddress, if_neg hlen, ha] at hkept
    cases hkept
    exact ⟨haddr, hrest⟩
  next =>
    rintro ⟨⟩ _
    exact ⟨haddr, hrest⟩

/-- A tensor that has the owner of a message and no message stays as it is. Any other has no data, or the bytes at its start and
its own address for them. -/
theorem setFromBuffer_spec (h : s.WellFormed) (hnew : s.memory address = none) (hplace : ∀ a, place = some a → a ≠ address)
    (hne : bytes ≠ []) : if s.hasOwner = true ∧ s.protoMsg = none then s.setFromBuffer place address bytes = s
      else Stored (s.setFromBuffer place address bytes) address bytes := by
  have hapart : Apart (s.setBlock address (some bytes)) place address := by
    refine ⟨fun msg hmsg => ?_, fun a ha => ?_, hplace⟩
    · obtain ⟨block, hblock, -⟩ := h.msg msg hmsg
      have hne : msg.address ≠ address := by
        intro heq
        rw [heq, hnew] at hblock
        cases hblock
      exact ⟨hne, by rw [setBlock_memory_of_ne hne, hblock]; exact nofun⟩
    · have hmem := h.aligned a ha
      have hne : a ≠ address := fun heq => hmem (heq ▸ hnew)
      exact ⟨hne, by rw [setBlock_memory_of_ne hne]; exact hmem⟩
  split
  next hno =>
    have hset : ((s.setBlock address (some bytes)).setDataAt place (some bytes)).2 = s.setBlock address (some bytes) := by
      unfold setDataAt setData
      have howner : (s.setBlock address (some bytes)).hasOwner = true := hno.1
      have hmsg : (s.setBlock address (some bytes)).protoMsg = none := hno.2
      dsimp only
      rw [if_pos howner, hmsg]
    rw [setFromBuffer, hset]
    obtain ⟨memory, hasOwner, protoMsg, length, alignedPtr⟩ := s
    have hmemory : Function.update (Function.update memory address (some bytes)) address none = memory := by
      rw [Function.update_idem, ← hnew, Function.update_eq_self]
    simp only [setBlock, hmemory]
  next hyes =>
    have hstored : Stored ((s.setBlock address (some bytes)).setData place bytes).2 address bytes := by
      cases howner : s.hasOwner with
      | false =>
        have hset : (s.setBlock address (some bytes)).setData place bytes =
            (s.setBlock address (some bytes)).setTensorData place bytes := if_neg (by simp [setBlock, howner])
        rw [hset]
        exact stored_setTensorData hapart hne
      | true =>
        obtain ⟨msg, hmsg⟩ := ne_none_iff_exists'.mp fun hnone => hyes ⟨howner, hnone⟩
        exact stored_setData hapart howner hmsg
    intro a ha hlen
    obtain ⟨haddr, rest, hrest⟩ := hstored a ha hlen
    exact ⟨haddr, rest, (setBlock_memory_of_ne haddr).trans hrest⟩

/-- Bytes that are laid out for another address do not lead to where they are. -/
theorem not_selfContained_of_stored (hne : data ≠ []) (hlayout : StringLayout address data bytes)
    (h : Stored t address bytes) : ¬t.SelfContained data := by
  rintro ⟨base, stored, hbase, hget, hself⟩
  have hpos : 0 < data.length := length_pos_iff.mpr hne
  have hsize : stored.length = bytes.length := hself.size.trans hlayout.size.symm
  have hlen : t.length ≠ 0 := by
    intro h0
    rw [getData, if_pos h0] at hget
    cases hget
    have hlt := stringOffset_lt hpos
    rw [← hself.size] at hlt
    exact Nat.not_lt_zero _ hlt
  rw [dataAddress, if_neg hlen] at hbase
  obtain ⟨haddr, rest, hrest⟩ := h base hbase hlen
  rw [getData, if_neg hlen, hbase, bind_some, bytesAt, hrest] at hget
  -- the data are as long as the bytes they start with
  have hstored : stored = bytes := by
    have htake : (bytes ++ rest).take t.length = stored := Option.some.inj hget
    rw [← htake, length_take, length_append] at hsize
    rcases Nat.le_total t.length bytes.length with hle | hle
    · have heq : t.length = bytes.length := by omega
      rw [← htake, heq, take_left]
    · have hnil : rest.length = 0 ∨ t.length = bytes.length := by omega
      rcases hnil with hnil | heq
      · rw [length_eq_zero_iff.mp hnil, append_nil, take_of_length_le hle] at htake
        exact htake.symm
      · rw [← htake, heq, take_left]
  have h1 := hself.slot 0 hpos
  rw [hstored, hlayout.slot 0 hpos] at h1
  exact haddr (Nat.add_right_cancel h1).symm

/-! ## Both overloads -/

variable {memcpyS : Nat → Nat → Bool} {buff : Option MemAddr} {fill : Nat → UInt8}

/-- The loop writes inside the buffer, and ends with the layout for where the buffer is, or fails. -/
theorem storeStrings_layout (memcpyS : Nat → Nat → Bool) (fill : Nat → UInt8) (data : List (List UInt8)) (address : Nat) :
    (∃ r, storeStrings memcpyS address (stringsSize data) data 0 (8 * data.length) (8 * data.length)
      ((List.range (stringsSize data)).map fill) = some (false, r)) ∨
    storeStrings memcpyS address (stringsSize data) data 0 (8 * data.length) (8 * data.length)
      ((List.range (stringsSize data)).map fill) = some (true, slots address (8 * data.length) data ++ terminated data) := by
  obtain ⟨gap, tail, hsplit, hgap⟩ : ∃ gap tail, (List.range (stringsSize data)).map fill = gap ++ tail ∧
      gap.length = 8 * data.length :=
    ⟨_, _, (take_append_drop (8 * data.length) _).symm, by simp [stringsSize_eq]⟩
  have htail : tail.length = (terminated data).length := by
    have hlen := congrArg List.length hsplit
    rw [length_map, length_range, length_append, hgap, stringsSize_eq] at hlen
    omega
  have h := storeStrings_rest memcpyS address data 0 (8 * data.length) [] gap [] tail rfl hgap (by simpa using hgap) htail
  rw [htail, ← stringsSize_eq] at h
  simpa [hsplit] using h

theorem setStrings_spec (s : GeTensorState) (memcpyS : Nat → Nat → Bool) (buff place : Option MemAddr) (fill : Nat → UInt8)
    (hne : data ≠ []) :
    s.setStrings memcpyS buff place fill data = some (false, s) ∨
      ∃ address, buff = some address ∧ s.setStrings memcpyS buff place fill data =
        some (true, s.setFromBuffer place address (slots address (8 * data.length) data ++ terminated data)) := by
  unfold setStrings
  rw [if_neg (by simpa using hne)]
  cases buff with
  | none => exact .inl rfl
  | some address =>
    dsimp only
    rcases storeStrings_layout memcpyS fill data address with ⟨r, hr⟩ | hr
    · rw [hr]
      exact .inl rfl
    · rw [hr]
      exact .inr ⟨address, rfl, rfl⟩

/-- A buffer for one string takes the address and the string, whatever was in it. -/
theorem writeAt_one (address : Nat) (str : List UInt8) (hold : old.length = str.length + 9) :
    (writeAt old 0 (addressBytes (address + 8))).bind (writeAt · 8 (str ++ [0])) =
      some (addressBytes (address + 8) ++ (str ++ [0])) ∧ (writeAt old 0 (addressBytes (address + 8))).isSome := by
  have h8 := addressBytes_length (address + 8)
  obtain ⟨gap, tail, rfl, hgap⟩ : ∃ gap tail, old = gap ++ tail ∧ gap.length = 8 :=
    ⟨_, _, (take_append_drop 8 old).symm, by simp [hold]⟩
  have htail : tail.length = str.length + 1 := by rw [length_append] at hold; omega
  have hslot : writeAt (gap ++ tail) 0 (addressBytes (address + 8)) = some (addressBytes (address + 8) ++ tail) :=
    writeAt_middle [] _ (hgap.trans h8.symm)
  have hone : tail.length = (str ++ [0]).length := by simp [htail]
  have hstr := writeAt_middle (addressBytes (address + 8)) [] hone
  rw [h8] at hstr
  rw [hslot]
  exact ⟨by simpa using hstr, rfl⟩

/-- One string that is not empty is set like a list of it. -/
theorem setString_eq {str : List UInt8} (hne : str ≠ []) :
    s.setString memcpyS buff place str = s.setStrings memcpyS buff place fill [str] := by
  unfold setString setStrings
  rw [if_neg (by simpa using hne), if_neg (show ¬[str].isEmpty = true from Bool.false_ne_true)]
  cases buff with
  | none => rfl
  | some address =>
    have hsize : stringsSize [str] = str.length + 9 := by simp [stringsSize]
    have hrange : ((List.range (str.length + 9)).map fill).length = str.length + 9 := by simp
    obtain ⟨h1, hs1⟩ := writeAt_one address str (length_replicate (n := str.length + 9) (a := 0))
    obtain ⟨h2, hs2⟩ := writeAt_one address str hrange
    obtain ⟨b1, hb1⟩ := isSome_iff_exists.mp hs1
    obtain ⟨b2, hb2⟩ := isSome_iff_exists.mp hs2
    rw [hb1, bind_some] at h1
    rw [hb2, bind_some] at h2
    have hle : ¬str.length + 9 < 8 := by omega
    dsimp only
    rw [hsize, hb1, bind_some, storeStrings]
    simp only [Nat.mul_zero, length_singleton, Nat.mul_one, hb2, bind_some, hle, if_false, h1, h2]
    cases memcpyS (str.length + 9 - 8) (str.length + 1) <;> rfl

end StringTensorAux

open StringTensorAux

/-! ## Where the slots lead -/

/-- Strings are set without a write outside the buffer. Then no slot leads to the memory of the tensor. What is left is a tensor
that has the owner of a message but no message: nothing is set, which is a success, and its data may have been such before. -/
theorem selfContained_iff (s : GeTensorState) (memcpyS : Nat → Nat → Bool) (buff place : Option MemAddr) (fill : Nat → UInt8)
    {data : List (List UInt8)} (hne : data ≠ []) (h : s.WellFormed)
    (hbuff : ∀ a, buff = some a → s.memory a = none ∧ a + stringsSize data ≤ (2 : Nat) ^ 64)
    (hplace : ∀ a, place = some a → buff ≠ some a) :
    (s.setStrings memcpyS buff place fill data).isSome ∧
      (∀ t, s.setStrings memcpyS buff place fill data = some (true, t) →
        (t.SelfContained data ↔ (s.hasOwner = true ∧ s.protoMsg = none) ∧ s.SelfContained data)) ∧
      ∀ str, data = [str] → s.setString memcpyS buff place str =
        if str = [] then some (false, s) else s.setStrings memcpyS buff place fill data := by
  refine ⟨?_, fun t ht => ?_, fun str hstr => ?_⟩
  · rcases setStrings_spec s memcpyS buff place fill hne with h | ⟨_, _, h⟩ <;>
      rw [h] <;> rfl
  · rcases setStrings_spec s memcpyS buff place fill hne with hf | ⟨a, ha, hok⟩
    · exact absurd (hf.symm.trans ht) (by simp)
    · obtain ⟨hnew, hend⟩ := hbuff a ha
      have hlayout := layout_slots hend
      have hbytes : slots a (8 * data.length) data ++ terminated data ≠ [] := by
        intro hnil
        have hlt := stringOffset_lt (length_pos_iff.mpr hne)
        rw [← hlayout.size, hnil] at hlt
        exact Nat.not_lt_zero _ hlt
      have hspec := setFromBuffer_spec h hnew (fun b hb heq => hplace b hb (heq ▸ ha)) hbytes
      have ht' : t = s.setFromBuffer place a (slots a (8 * data.length) data ++ terminated data) := by
        have := hok.symm.trans ht
        simpa using this.symm
      by_cases hno : s.hasOwner = true ∧ s.protoMsg = none
      · rw [if_pos hno] at hspec
        rw [ht', hspec]
        exact ⟨fun hself => ⟨hno, hself⟩, fun hself => hself.2⟩
      · rw [if_neg hno] at hspec
        rw [ht']
        exact iff_of_false (not_selfContained_of_stored hne hlayout hspec) fun hself => hno hself.1
  · split
    next hnil =>
      subst hnil
      rfl
    next hne =>
      rw [hstr]
      exact setString_eq hne

/-! ## One string -/

namespace StringTensorWitness

/-- A string of two bytes for a tensor without data: the buffer is at 4096, and the tensor gets memory at 8192. -/
theorem selfContained_two : ¬∃ t, ({} : GeTensorState).setStrings (fun left size => size ≤ left) (some 4096) (some 8192)
    (fun _ => 0) [[97, 98]] = some (true, t) ∧ t.SelfContained [[97, 98]] := by
  rintro ⟨t, ht, hself⟩
  have hiff := (selfContained_iff {} (fun left size => size ≤ left) (some 4096) (some 8192) (fun _ => 0)
    (cons_ne_nil [97, 98] []) ⟨rfl, nofun, nofun⟩ (by rintro a ⟨⟩; exact ⟨rfl, by decide⟩)
    (by rintro a ⟨⟩; decide)).2.1 t ht
  exact absurd (hiff.mp hself).1.1 (by decide)

/-- It is set, but its slot has an address in the buffer. -/
theorem selfContained_false : ¬∀ t, ({} : GeTensorState).setStrings (fun left size => size ≤ left) (some 4096) (some 8192)
    (fun _ => 0) [[97, 98]] = some (true, t) → t.SelfContained [[97, 98]] := by
  intro h
  obtain ⟨base, bytes, hbase, hbytes, hlayout⟩ := h _ rfl
  cases hbase
  cases hbytes
  exact absurd (hlayout.slot 0 (by decide)) (by decide)

end StringTensorWitness

end Metadef
