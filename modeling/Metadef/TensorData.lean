import Mathlib.Algebra.Group.Int.Defs
import Mathlib.Algebra.GroupWithZero.Nat
import Mathlib.Logic.Function.Basic

/-!
# The data of a tensor

A tensor of `ge_tensor.cc` owns its data or has a message whose bytes it reads. Either way it keeps an address and a length; for a
message they are a copy of those of a string, which is taken again after each change unless the string is where it was.
-/

namespace Metadef

/-! ## Memory -/

abbrev MemAddr := Nat

/-- The address that is given out for data of length zero. -/
def invalidData : MemAddr := 0

/-- The string of a message. -/
structure ProtoString where
  address : MemAddr
  size : Nat
  deriving DecidableEq, Repr

/-- A tensor and the memory its data are in: blocks of bytes at addresses. -/
structure GeTensorState where
  memory : MemAddr → Option (List UInt8) := fun _ => none
  /-- Whether the tensor has the owner of a message, and the message. -/
  hasOwner : Bool := false
  protoMsg : Option ProtoString := none
  length : Nat := 0
  alignedPtr : Option MemAddr := none

namespace GeTensorState

variable (s : GeTensorState)

/-- `TensorData::GetData`. -/
def dataAddress : Option MemAddr := if s.length = 0 then some invalidData else s.alignedPtr

/-- The bytes at an address, if they can be read. -/
def bytesAt (address : MemAddr) (size : Nat) : Option (List UInt8) := (s.memory address).map fun block => block.take size

/-- The bytes that are read from the data. -/
def getData : Option (List UInt8) := if s.length = 0 then some [] else s.alignedPtr.bind fun a => s.bytesAt a s.length

/-- The bytes of the message. -/
def protoData (msg : ProtoString) : Option (List UInt8) := s.bytesAt msg.address msg.size

/-- Puts a block at an address, or takes it away. -/
def setBlock (address : MemAddr) (block : Option (List UInt8)) : GeTensorState :=
  { s with memory := Function.update s.memory address block }

/-- Copies bytes to the front of a block. -/
def overwrite (address : MemAddr) (data : List UInt8) : GeTensorState :=
  s.setBlock address ((s.memory address).map fun block => data ++ block.drop data.length)

/-! ## Data of its own -/

/-- `TensorData::clear`. -/
def clear : GeTensorState := { s with alignedPtr := none, length := 0 }

/-- `TensorData::MallocAlignedPtr`. A new block is where the allocator puts it, if it finds a place. -/
def mallocAlignedPtr (place : Option MemAddr) (size : Nat) : Bool × GeTensorState :=
  if size = 0 then (true, s.clear)
  else
    match (if s.length ≠ size then none else s.alignedPtr), place with
    | some a, _ => (true, { s with length := size, alignedPtr := some a })
    | none, some a => (true, { s.setBlock a (some (List.replicate size 0)) with length := size, alignedPtr := some a })
    | none, none => (false, { s with length := size, alignedPtr := none })

/-- `TensorData::SetData`. -/
def setTensorData (place : Option MemAddr) (data : List UInt8) : Bool × GeTensorState :=
  if data.isEmpty then (true, s.clear)
  else
    match s.mallocAlignedPtr place data.length with
    | (false, t) => (false, t)
    | (true, t) => (true, (t.alignedPtr.map fun a => t.overwrite a data).getD t)

/-! ## Data of a message -/

/-- Assigns bytes to the string of a message, which ends with a zero. It stays where it is, or moves to a new block. -/
def setProtoData (place : Option MemAddr) (data : List UInt8) (msg : ProtoString) : GeTensorState :=
  match place with
  | none =>
    let s := s.setBlock msg.address ((s.memory msg.address).map fun block => data ++ 0 :: block.drop (data.length + 1))
    { s with protoMsg := some { msg with size := data.length } }
  | some a =>
    let s := (s.setBlock msg.address none).setBlock a (some (data ++ [0]))
    { s with protoMsg := some { address := a, size := data.length } }

def buildAlignerPtrWithProtoData : GeTensorState :=
  match s.protoMsg with
  | none => s
  | some msg => if some msg.address = s.dataAddress then s else { s with length := msg.size, alignedPtr := some msg.address }

/-- A tensor of a message. Without an owner of the message it copies the bytes. -/
def ofProto (memory : MemAddr → Option (List UInt8)) (hasOwner : Bool) (protoMsg : Option ProtoString) (place : Option MemAddr) :
    GeTensorState :=
  let s : GeTensorState := { memory, hasOwner, protoMsg }
  if hasOwner then s.buildAlignerPtrWithProtoData
  else
    match protoMsg.bind s.protoData with
    | some data => (s.setTensorData place data).2
    | none => s

/-! ## The tensor -/

/-- The body the overloads of `SetData` share that are given bytes. -/
def setData (place : Option MemAddr) (data : List UInt8) : Bool × GeTensorState :=
  if s.hasOwner then
    match s.protoMsg with
    | none => (false, s)
    | some msg => (true, (s.setProtoData place data msg).buildAlignerPtrWithProtoData)
  else s.setTensorData place data

/-- The overload that is given an address, which must not be null for a size that is not zero. -/
def setDataAt (place : Option MemAddr) (data : Option (List UInt8)) : Bool × GeTensorState :=
  match data with
  | none => (false, s)
  | some data => s.setData place data

/-- The overload that takes an address over without a copy. -/
def setAlignedPtr (alignedPtr : MemAddr) (size : Nat) : GeTensorState := { s with alignedPtr := some alignedPtr, length := size }

def clearData : GeTensorState :=
  if s.hasOwner then clear { s with protoMsg := s.protoMsg.map fun msg => { msg with size := 0 } } else s.clear

end GeTensorState

/-! ## Calls -/

inductive TensorCall
  | setVector (data : List UInt8)
  | setBuffer (data : List UInt8)
  | setTensorData (data : List UInt8)
  | setPointer (data : Option (List UInt8))
  | setAlignedPtr (alignedPtr : MemAddr) (size : Nat)
  | clearData
  deriving DecidableEq, Repr

/-- A call, and where memory is found that it asks for: nowhere, for a string where it was, or at an address. -/
structure TensorStep where
  call : TensorCall
  place : Option MemAddr := none
  deriving DecidableEq, Repr

namespace TensorStep

/-- New memory is at an address where none is, and an address taken over leads to as many bytes as are said to be there. -/
def Allowed (c : TensorStep) (s : GeTensorState) : Prop :=
  (∀ a, c.place = some a → a ≠ invalidData ∧ s.memory a = none) ∧
    ∀ ptr size, c.call = .setAlignedPtr ptr size → ∃ block, s.memory ptr = some block ∧ size ≤ block.length

/-- What a call does: whether it succeeds, and the tensor afterwards. -/
def run (c : TensorStep) (s : GeTensorState) : Bool × GeTensorState :=
  match c.call with
  | .setVector data => s.setData c.place data
  | .setBuffer data => s.setData c.place data
  | .setTensorData data => s.setData c.place data
  | .setPointer data => s.setDataAt c.place data
  | .setAlignedPtr ptr size => (true, s.setAlignedPtr ptr size)
  | .clearData => (true, s.clearData)

/-- The bytes a call sets. -/
def data (c : TensorStep) (s : GeTensorState) : Option (List UInt8) :=
  match c.call with
  | .setVector data => some data
  | .setBuffer data => some data
  | .setTensorData data => some data
  | .setPointer data => data
  | .setAlignedPtr ptr size => s.bytesAt ptr size
  | .clearData => none

end TensorStep

/-!
## Tensors of strings

A list of strings is laid out in a buffer of its own: a slot of eight bytes for each string with the address the string is at, then
the strings with a zero behind each. The bytes of the buffer are copied to the tensor, and the buffer is freed.
-/

/-! ## Buffers -/

/-- The bytes of an address, the least significant first. -/
def addressBytes (address : Nat) : List UInt8 := (List.range 8).map fun i => UInt8.ofNat (address / 256 ^ i)

/-- The address in a slot. -/
def addressOf (bytes : List UInt8) : Nat := bytes.foldr (fun b n => b.toNat + 256 * n) 0

/-- Writes bytes into a buffer, unless that goes past its end. -/
def writeAt (buff : List UInt8) (offset : Nat) (bytes : List UInt8) : Option (List UInt8) :=
  if offset + bytes.length ≤ buff.length then some (buff.take offset ++ bytes ++ buff.drop (offset + bytes.length)) else none

/-- The bytes of the slots, the strings and their zeros. -/
def stringsSize (data : List (List UInt8)) : Nat := (data.map fun str => str.length + 9).sum

/-- Where a string starts, behind the slots and the strings before it. -/
def stringOffset (data : List (List UInt8)) (i : Nat) : Nat :=
  8 * data.length + ((data.take i).map fun str => str.length + 1).sum

/-! ## Setting strings -/

section

-- Whether `memcpy_s` copies, by the bytes that are left and those to copy.
variable (memcpyS : Nat → Nat → Bool)

/-- The loop over the strings, for a buffer at an address. A write outside it has no result. -/
def storeStrings (address : MemAddr) (totalSize : Nat) :
    List (List UInt8) → (i rawData ptrSize : Nat) → List UInt8 → Option (Bool × List UInt8)
  | [], _, _, _, buff => some (true, buff)
  | str :: rest, i, rawData, ptrSize, buff =>
    (writeAt buff (8 * i) (addressBytes (address + rawData))).bind fun buff =>
      if totalSize < ptrSize then some (false, buff)
      else if !memcpyS (totalSize - ptrSize) (str.length + 1) then some (false, buff)
      else
        (writeAt buff rawData (str ++ [0])).bind fun buff =>
          storeStrings address totalSize rest (i + 1) (rawData + (str.length + 1)) (ptrSize + (str.length + 1)) buff

namespace GeTensorState

variable (s : GeTensorState)

/-- Copies a buffer to the tensor, whether or not that succeeds, and frees it. -/
def setFromBuffer (place : Option MemAddr) (address : MemAddr) (bytes : List UInt8) : GeTensorState :=
  ((s.setBlock address (some bytes)).setDataAt place (some bytes)).2.setBlock address none

/-- `TensorImpl::SetData` of a list. The buffer is at an address, if memory is found for it, and holds any bytes at first. -/
def setStrings (buff place : Option MemAddr) (fill : Nat → UInt8) (data : List (List UInt8)) : Option (Bool × GeTensorState) :=
  if data.isEmpty then some (false, s)
  else
    match buff with
    | none => some (false, s)
    | some address =>
      let totalSize := stringsSize data
      let ptrSize := 8 * data.length
      (storeStrings memcpyS address totalSize data 0 ptrSize ptrSize ((List.range totalSize).map fill)).map fun r =>
        if r.1 then (true, s.setFromBuffer place address r.2) else (false, s)

/-- `TensorImpl::SetData` of one string. -/
def setString (buff place : Option MemAddr) (data : List UInt8) : Option (Bool × GeTensorState) :=
  if data.isEmpty then some (false, s)
  else
    match buff with
    | none => some (false, s)
    | some address =>
      let totalSize := data.length + 9
      (writeAt (List.replicate totalSize 0) 0 (addressBytes (address + 8))).bind fun bytes =>
        if !memcpyS (totalSize - 8) (data.length + 1) then some (false, s)
        else (writeAt bytes 8 (data ++ [0])).map fun bytes => (true, s.setFromBuffer place address bytes)

end GeTensorState

end

/-! ## What strings take -/

/-- Bytes at an address with a slot for each string, then the strings, and an address in each slot at which its string is. -/
structure StringLayout (base : MemAddr) (data : List (List UInt8)) (bytes : List UInt8) : Prop where
  size : bytes.length = stringsSize data
  strings : bytes.drop (8 * data.length) = data.flatMap (· ++ [0])
  slot : ∀ i < data.length, addressOf ((bytes.drop (8 * i)).take 8) = base + stringOffset data i

/-- The tensor has the strings, and its slots lead to them where the tensor has its data. -/
def GeTensorState.SelfContained (s : GeTensorState) (data : List (List UInt8)) : Prop :=
  ∃ base bytes, s.dataAddress = some base ∧ s.getData = some bytes ∧ StringLayout base data bytes

end Metadef
