import Metadef.AttrValue
import Metadef.ComputeGraph

/-!
# Inserting nodes before an input

`InsertTransNode` of `graph_utils.cc`, with the formats of data anchors and the attributes of descriptors it reads and writes.
-/

namespace Metadef

/-- An integer as a format, which is stored in 32 bits. -/
def Format.ofInt64 (x : Int64) : Format := x.toUInt64.toUInt32.toNat

/-- The objects, with the formats of data anchors, the attributes of descriptors and the names of attributes they must have. -/
structure TransState (M : AttrMessages) where
  heap : Heap
  format : AnchorId → Format := fun _ => Format.nd
  attrs : OpId → AttrHolder M := fun _ => {}
  requiredAttrs : OpId → List String := fun _ => []

namespace TransState

variable {M : AttrMessages} {α : Type}

/-- A command on the objects. -/
def onHeap (c : Cmd Heap α) : Cmd (TransState M) α := fun s => (c s.heap).map fun r => (r.1, { s with heap := r.2 })

/-- `HasAttr`: an attribute that is required counts also before it has a value. -/
def hasAttr (s : TransState M) (op : OpId) (name : String) : Bool :=
  ((s.attrs op).attrMap.bind (·.find name)).isSome || (s.requiredAttrs op).contains name

/-- `GetInt`. -/
def getInt (s : TransState M) (op : OpId) (name : String) : Option Int64 :=
  let r : Bool × Int64 := AttrUtils.get (s.attrs op) name (.one .int) (0 : Int64)
  if r.1 then some r.2 else none

end TransState

/-- `AnchorUtils::SetFormat`. -/
def AnchorUtils.setFormat {M : AttrMessages} (a : Option AnchorId) (format : Format) : Cmd (TransState M) Bool := do
  let some a := a | return false
  if format = Format.reserved then return false
  modify fun s => { s with format := Function.update s.format a format }
  return true

namespace GraphUtils

open TransState

variable {M : AttrMessages}

/-- `RecordOriginalNames` of no nodes. -/
def recordOriginalNames (op : OpId) : Cmd (TransState M) Unit :=
  modify fun s => { s with
    attrs := Function.update s.attrs op (AttrUtils.set (s.attrs op) "_datadump_original_op_names" (.list .str)
      ([] : List String)).2 }

/-- Changes a descriptor by one of its functions, and returns the function's status. -/
def editDesc (op : OpId) (f : OpDesc → Bool × OpDesc) : Cmd (TransState M) Bool := do
  let s ← get
  set { s with heap := s.heap.setOp op (f (s.heap.op op)).2 }
  return (f (s.heap.op op)).1

/-- `AddNode` of a descriptor; the anchors made have the format they start with. -/
def addTransNode (this : GraphId) (op : OpId) : Cmd (TransState M) (Option NodeId) := do
  let s ← get
  let node ← onHeap (ComputeGraph.addOpNode this (some op))
  modify fun t => { t with format := fun a => if a < s.heap.anchorCount then t.format a else Format.nd }
  return node

/-- The formats of an inserted node and of the anchors it is between. The check that the output feeds nothing is the source's. -/
def setTransFormats (nodeIn nodeOut : AnchorId) (srcFormat inputFormat outputFormat dstFormat : Format) :
    Cmd (TransState M) Bool := do
  let h := (← get).heap
  let some src := InDataAnchor.getPeerOutAnchor h nodeIn | return false
  if !(OutDataAnchor.getPeerInDataAnchors h nodeOut).isEmpty then return false
  let some dst := (OutDataAnchor.getPeerInDataAnchors h nodeOut).head? | Cmd.undef
  if !(← AnchorUtils.setFormat (some src) srcFormat) then return false
  if !(← AnchorUtils.setFormat (some nodeIn) inputFormat) then return false
  if !(← AnchorUtils.setFormat (some nodeOut) outputFormat) then return false
  AnchorUtils.setFormat (some dst) dstFormat

/-- The last part of a round: the formats the attributes name are set when there are both. -/
def recordFormats (op : OpId) (nodeIn nodeOut : AnchorId) (srcFormat dstFormat : Format) : Cmd (TransState M) Bool := do
  let s ← get
  if s.hasAttr op "input_format" then
    match s.getInt op "input_format", s.getInt op "output_format" with
    | some inputFormat, some outputFormat =>
      if !(← setTransFormats nodeIn nodeOut srcFormat (Format.ofInt64 inputFormat) (Format.ofInt64 outputFormat) dstFormat) then
        return false
      recordOriginalNames op
      return true
    | _, _ => return true
  else
    recordOriginalNames op
    return true

/-- One round: a node over the descriptor is put between an input and the output that feeds it. -/
def insertTransOp (this : GraphId) (inDataAnchor : AnchorId) (opDesc : Option OpId) : Cmd (TransState M) Bool := do
  let some op := opDesc | return false
  if !(← editDesc op fun d => d.addInputDesc {}) then return false
  if !(← editDesc op fun d => d.addOutputDesc {}) then return false
  let some node ← addTransNode this op | return false
  let s ← get
  let h := s.heap
  let some peer := InDataAnchor.getPeerOutAnchor h inDataAnchor | return false
  let some srcOut := Node.getOutDataAnchor h (h.owner peer) (h.anchor peer).idx | return false
  let some dstIn := Node.getInDataAnchor h (h.owner inDataAnchor) (h.anchor inDataAnchor).idx | return false
  if !(← onHeap (removeEdge (some srcOut) (some dstIn))) then return false
  let some nodeIn := Node.getInDataAnchor h node 0 | return false
  let some nodeOut := Node.getOutDataAnchor h node 0 | return false
  if !(← onHeap (addDataEdge (some srcOut) (some nodeIn))) then return false
  if !(← onHeap (addDataEdge (some nodeOut) (some dstIn))) then return false
  recordFormats op nodeIn nodeOut (s.format peer) (s.format inDataAnchor)

/-- `InsertTransNode`. -/
def insertTransNode (this : GraphId) (inDataAnchor : Option AnchorId) (vecOpDesc : List (Option OpId)) :
    Cmd (TransState M) Bool :=
  match inDataAnchor with
  | none => pure false
  | some inDataAnchor => Cmd.eachOk (insertTransOp this inDataAnchor) vecOpDesc

end GraphUtils

end Metadef
