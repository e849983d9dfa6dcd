import Metadef.TensorData

/-!
# Tensors hold what was set

A tensor holds the bytes that were set last, and so does its message, unless the string of the message takes bytes of another length
where the tensor has it already, or an address is taken over past the message.
-/

namespace Metadef

namespace GeTensorState

/-- The strings and blocks a tensor knows of are there. -/
structure WellFormed (s : GeTensorState) : Prop where
  invalid : s.memory invalidData = none
  msg : ∀ msg, s.protoMsg = some msg → ∃ block, s.memory msg.address = some block ∧ msg.size ≤ block.length
  aligned : ∀ a, s.alignedPtr = some a → s.memory a ≠ none

/-- The tensor holds bytes, and its message does if it has one. -/
structure Holds (s : GeTensorState) (data : List UInt8) : Prop where
  size : s.length = data.length
  bytes : s.getData = some data
  message : s.hasOwner = true → ∀ msg, s.protoMsg = some msg → s.protoData msg = some data

variable {s t : GeTensorState} {place : Option MemAddr} {data : List UInt8} {msg : ProtoString}

/-! ## Blocks -/

variable {a : MemAddr} {old block : List UInt8} {size : Nat}

@[simp] theorem setBlock_memory_self {block : Option (List UInt8)} : (s.setBlock a block).memory a = block :=
  Function.update_self ..

theorem setBlock_memory_of_ne {b : MemAddr} {block : Option (List UInt8)} (h : b ≠ a) : (s.setBlock a block).memory b =
    s.memory b :=
  Function.update_of_ne h ..

/-- A block that is there is replaced by one that is not shorter. -/
theorem WellFormed.setBlock (h : s.WellFormed) (ha : s.memory a = some old)
    (hle : old.length ≤ block.length) : (s.setBlock a (some block)).WellFormed := by
  refine ⟨?_, fun msg hmsg => ?_, fun b hb => ?_⟩
  · have hne : invalidData ≠ a := by
      rintro rfl
      rw [h.invalid] at ha
      cases ha
    rw [setBlock_memory_of_ne hne, h.invalid]
  · obtain ⟨b, hb, hsize⟩ := h.msg msg hmsg
    by_cases heq : msg.address = a
    · cases (heq ▸ hb).symm.trans ha
      exact ⟨block, by rw [heq, setBlock_memory_self], Nat.le_trans hsize hle⟩
    · exact ⟨b, by rw [setBlock_memory_of_ne heq, hb], hsize⟩
  · by_cases heq : b = a
    · rw [heq, setBlock_memory_self]
      exact nofun
    · rw [setBlock_memory_of_ne heq]
      exact h.aligned b hb

/-- A new block is put where none is. -/
theorem WellFormed.setBlock_new (h : s.WellFormed) (ha : a ≠ invalidData ∧ s.memory a = none) :
    (s.setBlock a (some block)).WellFormed := by
  refine ⟨?_, fun msg hmsg => ?_, fun b hb => ?_⟩
  · rw [setBlock_memory_of_ne ha.1.symm, h.invalid]
  · obtain ⟨b, hb, hsize⟩ := h.msg msg hmsg
    have hne : msg.address ≠ a := by
      rintro rfl
      rw [ha.2] at hb
      cases hb
    exact ⟨b, by rw [setBlock_memory_of_ne hne, hb], hsize⟩
  · have hne : b ≠ a := by
      rintro rfl
      exact h.aligned b hb ha.2
    rw [setBlock_memory_of_ne hne]
    exact h.aligned b hb

theorem WellFormed.withData {n : Nat} (h : s.WellFormed) (ha : s.memory a ≠ none) :
    WellFormed { s with length := n, alignedPtr := some a } := ⟨h.invalid, h.msg, fun b hb => by cases hb; exact ha⟩

/-! ## Data of its own -/

theorem wellFormed_clear (h : s.WellFormed) : s.clear.WellFormed := ⟨h.invalid, h.msg, nofun⟩

/-- Bytes that are copied to the front of a block are read from it. -/
theorem bytesAt_overwrite (ha : s.memory a = some old) : (s.overwrite a data).bytesAt a data.length = some data := by
  rw [bytesAt, overwrite, ha, setBlock_memory_self]
  simp

theorem WellFormed.overwrite (h : s.WellFormed) (ha : s.memory a ≠ none) : (s.overwrite a data).WellFormed := by
  obtain ⟨old, hold⟩ := Option.ne_none_iff_exists'.mp ha
  rw [GeTensorState.overwrite, hold]
  refine h.setBlock hold ?_
  simp
  omega

/-- What is copied to the block of a tensor of its own, it holds. -/
theorem holds_overwrite (howner : s.hasOwner = false) (ha : s.memory a ≠ none) (haligned : s.alignedPtr = some a)
    (hlen : s.length = data.length) (hne : data ≠ []) : (s.overwrite a data).Holds data := by
  obtain ⟨old, hold⟩ := Option.ne_none_iff_exists'.mp ha
  have h0 : (s.overwrite a data).length ≠ 0 := by
    change s.length ≠ 0
    rw [hlen]
    exact fun h => hne (List.length_eq_zero_iff.mp h)
  refine ⟨hlen, ?_, fun h => absurd (howner.symm.trans h) (by decide)⟩
  have haligned' : (s.overwrite a data).alignedPtr = some a := haligned
  have hlen' : (s.overwrite a data).length = data.length := hlen
  rw [getData, if_neg h0, haligned', hlen']
  exact bytesAt_overwrite hold

/-- The memory of a tensor of its own: there is a block of the size, or none was found. -/
theorem mallocAlignedPtr_spec (h : s.WellFormed) (hsize : size ≠ 0)
    (hplace : ∀ a, place = some a → a ≠ invalidData ∧ s.memory a = none) :
    (s.mallocAlignedPtr place size).2.WellFormed ∧ (s.mallocAlignedPtr place size).2.hasOwner = s.hasOwner ∧
      (s.mallocAlignedPtr place size).2.length = size ∧
      ((s.mallocAlignedPtr place size).1 = true → ∃ a, (s.mallocAlignedPtr place size).2.alignedPtr = some a) := by
  unfold mallocAlignedPtr
  rw [if_neg hsize]
  split
  next _ a hkept =>
    have ha : s.alignedPtr = some a := by
      split at hkept
      · cases hkept
      · exact hkept
    exact ⟨h.withData (h.aligned a ha), rfl, rfl, fun _ => ⟨a, rfl⟩⟩
  next a hkept =>
    have hnew := hplace a rfl
    exact ⟨(h.setBlock_new hnew).withData (by simp), rfl, rfl, fun _ => ⟨a, rfl⟩⟩
  next => exact ⟨⟨h.invalid, h.msg, nofun⟩, rfl, rfl, nofun⟩

/-- Bytes are copied to the block of the tensor, or to a new one. -/
theorem setTensorData_spec (data : List UInt8) (h : s.WellFormed) (howner : s.hasOwner = false)
    (hplace : ∀ a, place = some a → a ≠ invalidData ∧ s.memory a = none) :
    (s.setTensorData place data).2.WellFormed ∧
      ((s.setTensorData place data).1 = true → (s.setTensorData place data).2.Holds data) := by
  by_cases hdata : data = []
  · subst hdata
    exact ⟨wellFormed_clear h, fun _ => ⟨rfl, rfl, fun h' => absurd (howner.symm.trans h') (by decide)⟩⟩
  · have hlen : data.length ≠ 0 := fun h0 => hdata (List.length_eq_zero_iff.mp h0)
    obtain ⟨hwf, hown, hsize, haligned⟩ := mallocAlignedPtr_spec h hlen hplace
    unfold setTensorData
    rw [if_neg (by simpa using hdata)]
    generalize s.mallocAlignedPtr place data.length = r at hwf hown hsize haligned
    obtain ⟨ok, t⟩ := r
    cases ok with
    | false => exact ⟨hwf, nofun⟩
    | true =>
      obtain ⟨a, ha⟩ := haligned rfl
      have hmem := hwf.aligned a ha
      dsimp only at ha hmem ⊢
      rw [ha]
      exact ⟨hwf.overwrite hmem, fun _ => holds_overwrite (hown.trans howner) hmem ha hsize hdata⟩

/-! ## Data of a message -/

@[simp] theorem setProtoData_length : (s.setProtoData place data msg).length = s.length := by cases place <;> rfl

@[simp] theorem setProtoData_alignedPtr : (s.setProtoData place data msg).alignedPtr = s.alignedPtr := by cases place <;> rfl

@[simp] theorem setProtoData_hasOwner : (s.setProtoData place data msg).hasOwner = s.hasOwner := by cases place <;> rfl

@[simp] theorem setProtoData_dataAddress : (s.setProtoData place data msg).dataAddress = s.dataAddress := by simp [dataAddress]

/-- The string of the message holds what was assigned to it. -/
theorem setProtoData_spec (h : s.WellFormed) (hmsg : s.protoMsg = some msg)
    (hplace : ∀ a, place = some a → a ≠ invalidData ∧ s.memory a = none) : ∃ msg' block,
      (s.setProtoData place data msg).protoMsg = some msg' ∧ msg'.size = data.length ∧ msg'.address = place.getD msg.address ∧
      (s.setProtoData place data msg).memory msg'.address = some (data ++ block) ∧
      (s.setProtoData place data msg).memory invalidData = none := by
  obtain ⟨old, hold, -⟩ := h.msg msg hmsg
  cases place with
  | none =>
    refine ⟨{ msg with size := data.length }, 0 :: old.drop (data.length + 1), rfl, rfl, rfl, ?_, ?_⟩
    · simp [setProtoData, hold]
    · have hne : invalidData ≠ msg.address := by
        rintro heq
        rw [← heq, h.invalid] at hold
        cases hold
      exact (setBlock_memory_of_ne hne).trans h.invalid
  | some a =>
    obtain ⟨ha, -⟩ := hplace a rfl
    refine ⟨{ address := a, size := data.length }, [0], rfl, rfl, rfl, setBlock_memory_self, ?_⟩
    refine (setBlock_memory_of_ne ha.symm).trans ?_
    by_cases heq : invalidData = msg.address
    · rw [heq]
      exact setBlock_memory_self
    · exact (setBlock_memory_of_ne heq).trans h.invalid

theorem dataAddress_live (h : s.WellFormed) (ha : s.dataAddress = some a) : a = invalidData ∨ s.memory a ≠ none := by
  rw [dataAddress] at ha
  split at ha
  · exact .inl (Option.some.inj ha).symm
  · exact .inr (h.aligned a ha)

/-- What a message is set to is held exactly when the string is not where the tensor has data of another length. -/
theorem setData_message (data : List UInt8) (h : s.WellFormed) (hmsg : s.protoMsg = some msg)
    (hplace : ∀ a, place = some a → a ≠ invalidData ∧ s.memory a = none) :
    (s.setProtoData place data msg).buildAlignerPtrWithProtoData.WellFormed ∧
      ((s.setProtoData place data msg).buildAlignerPtrWithProtoData.Holds data ↔
        (place = none → s.dataAddress = some msg.address → data.length = s.length)) := by
  obtain ⟨msg', block, hmsg', hsize, haddr, hmem, hinvalid⟩ := setProtoData_spec h hmsg hplace
  have hbytes : (s.setProtoData place data msg).bytesAt msg'.address data.length = some data := by
    rw [bytesAt, hmem]
    simp
  have hwf : ∀ t : GeTensorState, t.memory = (s.setProtoData place data msg).memory → t.protoMsg = some msg' →
      (∀ a, t.alignedPtr = some a → t.memory a ≠ none) → t.WellFormed := by
    intro t hmemory hproto haligned
    refine ⟨by rw [hmemory, hinvalid], fun m hm => ?_, haligned⟩
    cases hproto.symm.trans hm
    exact ⟨data ++ block, by rw [hmemory, hmem], by simp [hsize]⟩
  unfold buildAlignerPtrWithProtoData
  rw [hmsg']
  dsimp only
  rw [setProtoData_dataAddress]
  by_cases hkept : some msg'.address = s.dataAddress
  · -- the string is where the data are: it has not moved
    have hplace' : place = none := by
      cases hp : place with
      | none => rfl
      | some a =>
        obtain ⟨hne, hfree⟩ := hplace a hp
        rw [haddr, hp, Option.getD_some] at hkept
        rcases dataAddress_live h hkept.symm with h' | h'
        · exact absurd h' hne
        · exact absurd hfree h'
    subst hplace'
    rw [Option.getD_none] at haddr
    rw [if_pos hkept]
    have hlen : s.length ≠ 0 := by
      intro h0
      rw [dataAddress, if_pos h0] at hkept
      rw [Option.some.inj hkept, hinvalid] at hmem
      cases hmem
    have haligned : s.alignedPtr = some msg'.address := by
      rw [dataAddress, if_neg hlen] at hkept
      exact hkept.symm
    refine ⟨hwf _ rfl hmsg' fun a ha => ?_, ?_⟩
    · rw [setProtoData_alignedPtr, haligned] at ha
      cases ha
      rw [hmem]
      exact nofun
    · constructor
      · intro hholds _ _
        exact hholds.size.symm.trans setProtoData_length
      · intro hsame
        have hsize' := hsame rfl (by rw [← haddr, hkept])
        refine ⟨setProtoData_length.trans hsize'.symm, ?_, fun _ m hm => ?_⟩
        · rw [getData, setProtoData_length, if_neg hlen, setProtoData_alignedPtr, haligned, ← hsize']
          exact hbytes
        · cases hmsg'.symm.trans hm
          rw [protoData, hsize]
          exact hbytes
  · rw [if_neg hkept]
    refine ⟨hwf _ rfl rfl fun a ha => ?_, iff_of_true ⟨hsize, ?_, fun _ m hm => ?_⟩ ?_⟩
    · cases ha
      change (s.setProtoData place data msg).memory msg'.address ≠ none
      rw [hmem]
      exact nofun
    · rw [getData]
      split
      next h0 =>
        have hnil : data = [] := List.length_eq_zero_iff.mp (hsize.symm.trans h0)
        rw [hnil]
      · change (s.setProtoData place data msg).bytesAt msg'.address msg'.size = some data
        rw [hsize, hbytes]
    · cases hm
      change (s.setProtoData place data msg).bytesAt msg'.address msg'.size = some data
      rw [hsize, hbytes]
    · intro hplace' hsame
      refine absurd ?_ hkept
      rw [haddr, hplace', Option.getD_none, hsame]

/-! ## Runs -/

theorem setData_spec (data : List UInt8) (h : s.WellFormed) (hplace : ∀ a, place = some a → a ≠ invalidData ∧ s.memory a = none) :
    (s.setData place data).2.WellFormed ∧ (((s.setData place data).1 = true → (s.setData place data).2.Holds data) ↔
      (s.hasOwner = true → ∀ msg, s.protoMsg = some msg → place = none → s.dataAddress = some msg.address →
        data.length = s.length)) := by
  unfold setData
  cases howner : s.hasOwner with
  | false =>
    obtain ⟨hwf, hholds⟩ := setTensorData_spec data h howner hplace
    exact ⟨hwf, iff_of_true hholds nofun⟩
  | true =>
    rw [if_pos rfl]
    cases hmsg : s.protoMsg with
    | none => exact ⟨h, iff_of_true nofun nofun⟩
    | some msg =>
      obtain ⟨hwf, hiff⟩ := setData_message data h hmsg hplace
      refine ⟨hwf, ?_⟩
      simp only [forall_const, Option.some.injEq, forall_eq']
      exact hiff

theorem setAlignedPtr_spec {ptr : MemAddr} (h : s.WellFormed) (hptr : s.memory ptr = some block)
    (hsize : size ≤ block.length) : (s.setAlignedPtr ptr size).WellFormed ∧ ((s.setAlignedPtr ptr size).Holds (block.take size) ↔
      (s.hasOwner = true → ∀ msg, s.protoMsg = some msg → s.protoData msg = some (block.take size))) := by
  refine ⟨h.withData (by simp [hptr]), fun hholds => hholds.message, fun hmsg => ⟨?_, ?_, hmsg⟩⟩
  · simp [setAlignedPtr, hsize]
  · rw [getData]
    split
    next h0 =>
      have hzero : size = 0 := h0
      simp [hzero]
    · change s.bytesAt ptr size = some (block.take size)
      rw [bytesAt, hptr]
      rfl

theorem WellFormed.clearData (h : s.WellFormed) : s.clearData.WellFormed := by
  unfold GeTensorState.clearData
  split
  · refine ⟨h.invalid, fun msg hmsg => ?_, nofun⟩
    obtain ⟨old, hold, rfl⟩ := Option.map_eq_some_iff.mp hmsg
    obtain ⟨block, hblock, -⟩ := h.msg old hold
    exact ⟨block, hblock, Nat.zero_le _⟩
  · exact wellFormed_clear h

/-- A tensor is well-formed from the start if the string of its message is there. -/
theorem wellFormed_ofProto {memory : MemAddr → Option (List UInt8)} {hasOwner : Bool} {protoMsg : Option ProtoString}
    (hinvalid : memory invalidData = none)
    (hmsg : ∀ msg, protoMsg = some msg → ∃ block, memory msg.address = some block ∧ msg.size ≤ block.length)
    (hplace : ∀ a, place = some a → a ≠ invalidData ∧ memory a = none) : (ofProto memory hasOwner protoMsg place).WellFormed := by
  have h : WellFormed { memory, hasOwner, protoMsg } := ⟨hinvalid, hmsg, nofun⟩
  cases hasOwner with
  | false =>
    unfold ofProto
    rw [if_neg (by decide)]
    split
    · exact (setTensorData_spec _ h rfl hplace).1
    · exact h
  | true =>
    unfold ofProto buildAlignerPtrWithProtoData
    rw [if_pos rfl]
    split
    · exact h
    next msg hsome =>
      obtain ⟨block, hblock, -⟩ := hmsg msg hsome
      split
      · exact h
      · exact h.withData (by simp [hblock])

end GeTensorState

open GeTensorState

namespace TensorStep

variable {c : TensorStep} {s : GeTensorState}

/-- A call on which the tensor takes the data of its message again: the string is not where the tensor has data of another length,
and an address that is taken over leads to the data of the message. -/
def Refreshes (c : TensorStep) (s : GeTensorState) : Prop :=
  ∀ data, c.data s = some data → s.hasOwner = true → ∀ msg, s.protoMsg = some msg →
    match c.call with
    | .setAlignedPtr _ _ => s.protoData msg = some data
    | _ => c.place = none → s.dataAddress = some msg.address → data.length = s.length

/-- A call leaves the tensor well-formed, and it holds what was set exactly when the data were taken again. -/
theorem run_spec (h : s.WellFormed) (hc : c.Allowed s) :
    (c.run s).2.WellFormed ∧ (((c.run s).1 = true → ∀ data, c.data s = some data → (c.run s).2.Holds data) ↔ c.Refreshes s) := by
  obtain ⟨call, place⟩ := c
  obtain ⟨hplace, hptr⟩ := hc
  -- the overloads that are given bytes differ only in how they are given
  have hset : ∀ data, (s.setData place data).2.WellFormed ∧
      (((s.setData place data).1 = true → ∀ d, some data = some d → (s.setData place data).2.Holds d) ↔
        ∀ d, some data = some d → s.hasOwner = true → ∀ msg, s.protoMsg = some msg → place = none →
          s.dataAddress = some msg.address → d.length = s.length) := by
    intro data
    obtain ⟨hwf, hiff⟩ := setData_spec data h hplace
    simp only [Option.some.injEq, forall_eq']
    exact ⟨hwf, hiff⟩
  cases call with
  | setVector data => exact hset data
  | setBuffer data => exact hset data
  | setTensorData data => exact hset data
  | setPointer data =>
    cases data with
    | none => exact ⟨h, iff_of_true nofun nofun⟩
    | some data => exact hset data
  | setAlignedPtr ptr size =>
    obtain ⟨block, hblock, hle⟩ := hptr ptr size rfl
    obtain ⟨hwf, hiff⟩ := setAlignedPtr_spec h hblock hle
    have hdata : s.bytesAt ptr size = some (block.take size) := by rw [GeTensorState.bytesAt, hblock]; rfl
    refine ⟨hwf, ?_⟩
    simp only [run, Refreshes, data, hdata, Option.some.injEq, forall_eq', forall_const]
    exact hiff
  | clearData => exact ⟨h.clearData, iff_of_true nofun nofun⟩

/-- Every call is allowed where it is made. -/
def AllAllowed : List TensorStep → GeTensorState → Prop
  | [], _ => True
  | c :: cs, s => c.Allowed s ∧ AllAllowed cs (c.run s).2

/-- After every call that succeeds the tensor holds what was set. -/
def HoldsAlong : List TensorStep → GeTensorState → Prop
  | [], _ => True
  | c :: cs, s => ((c.run s).1 = true → ∀ data, c.data s = some data → (c.run s).2.Holds data) ∧ HoldsAlong cs (c.run s).2

/-- Every call takes the data of the message again. -/
def RefreshesAlong : List TensorStep → GeTensorState → Prop
  | [], _ => True
  | c :: cs, s => c.Refreshes s ∧ RefreshesAlong cs (c.run s).2

/-- A tensor holds what was last set along a run exactly when every call of it takes the data of the message again. -/
theorem holdsAlong_iff {cs : List TensorStep} (h : s.WellFormed) (hcs : AllAllowed cs s) : HoldsAlong cs s ↔
    RefreshesAlong cs s := by
  induction cs generalizing s with
  | nil => exact Iff.rfl
  | cons c cs ih =>
    obtain ⟨hwf, hiff⟩ := run_spec h hcs.1
    exact and_congr hiff (ih hwf hcs.2)

/-- A tensor whose message has four bytes. -/
def fourBytes : GeTensorState := .ofProto (Function.update (fun _ => none) 8 (some [1, 2, 3, 4, 0])) true (some ⟨8, 4⟩) none

theorem wellFormed_fourBytes : fourBytes.WellFormed := by
  refine wellFormed_ofProto (by decide) (fun msg hmsg => ?_) nofun
  cases hmsg
  exact ⟨[1, 2, 3, 4, 0], by decide, by decide⟩

theorem holdsAlong_fourBytes : HoldsAlong [⟨.setVector [5, 6, 7, 8], none⟩, ⟨.setBuffer [9], some 16⟩,
    ⟨.clearData, none⟩] fourBytes := by
  have hallowed : AllAllowed [⟨.setVector [5, 6, 7, 8], none⟩, ⟨.setBuffer [9], some 16⟩, ⟨.clearData, none⟩] fourBytes := by
    refine ⟨⟨nofun, nofun⟩, ⟨fun a ha => ?_, nofun⟩, ⟨nofun, nofun⟩, trivial⟩
    cases ha
    exact ⟨by decide, by decide⟩
  refine (holdsAlong_iff wellFormed_fourBytes hallowed).mpr ⟨fun data hdata _ _ _ _ _ => ?_, fun _ _ _ _ _ => nofun, nofun, trivial⟩
  cases hdata
  decide

/-- Two bytes that the string of the message takes where it is are read as four. -/
theorem holdsAlong_false : ¬HoldsAlong [⟨.setVector [1, 2], none⟩] fourBytes := by
  intro h
  have hsize := (h.1 rfl [1, 2] rfl).size
  exact absurd hsize (by decide)

end TensorStep

end Metadef
