import Metadef.AttrValue
import Metadef.Heap

/-!
# Origin names

Two functions record on a node the names of the nodes it was fused from: `RecordOriginalNames` of `graph_utils.cc` and that of
`graph_pass_util.h`. The names are an attribute of the node's descriptor, and a node that has them was fused itself.
-/

namespace Metadef

/-- A descriptor: its name and its attributes. -/
structure NamedOpDesc (M : AttrMessages) where
  name : String
  attrs : AttrHolder M := {}

variable {M : AttrMessages}

/-- The descriptors of nodes, which may be null. -/
abbrev NodeDescs (M : AttrMessages) := NodeId → Option (NamedOpDesc M)

namespace NodeDescs

/-- The attribute `_datadump_original_op_names`. -/
def attrName : String := "_datadump_original_op_names"

/-- `GetListStr` of the names of a descriptor. -/
def getListStr (d : NamedOpDesc M) : Bool × List String := AttrUtils.get d.attrs attrName (.list .str) ([] : List String)

/-- `SetListStr` of names, which fails on a null descriptor. -/
def setListStr (node : NodeId) (names : List String) (s : NodeDescs M) : NodeDescs M :=
  Function.update s node ((s node).map fun d => { d with attrs := (AttrUtils.set d.attrs attrName (.list .str) names).2 })

end NodeDescs

open NodeDescs

/-! ## The recorder of the graph utilities -/

namespace GraphUtils

/-- The loop of `RecordOriginalNames`. A null node has no outcome; one without names is left out, and one with none of them gives its
own. -/
def originalNames (s : NodeDescs M) : List (Option NodeId) → List String → Option (List String)
  | [], names => some names
  | none :: _, _ => none
  | some n :: nodes, names =>
    match s n with
    | none => originalNames s nodes names
    | some d =>
      let (ret, namesTmp) := getListStr d
      if !ret then originalNames s nodes names
      else if namesTmp.length ≠ 0 then originalNames s nodes (names ++ namesTmp)
      else originalNames s nodes (names ++ [d.name])

/-- `RecordOriginalNames` of nodes. -/
def recordOriginalNamesOf (originalNodes : List (Option NodeId)) (node : Option NodeId) : Cmd (NodeDescs M) Unit := do
  let some node := node | return
  let some names := originalNames (← get) originalNodes [] | Cmd.undef
  modify (setListStr node names)

end GraphUtils

/-! ## The recorder of the graph passes -/

namespace GraphPassUtil

/-- The loop of `RecordOriginalNames`, which returns at a null node or descriptor. -/
def originalNames (s : NodeDescs M) : List (Option NodeId) → List String → Option (List String)
  | [], names => some names
  | n :: nodes, names =>
    match n.bind s with
    | none => none
    | some d =>
      let (isHasAttr, namesTmp) := getListStr d
      if isHasAttr then originalNames s nodes (names ++ namesTmp.filter (· ≠ ""))
      else originalNames s nodes (names ++ [d.name])

/-- `RecordOriginalNames`. -/
def recordOriginalNames (originalNodes : List (Option NodeId)) (node : Option NodeId) : Cmd (NodeDescs M) Unit := do
  let some names := originalNames (← get) originalNodes [] | return
  let some node := node | return
  modify (setListStr node names)

end GraphPassUtil

/-! ## Fusions -/

inductive Recorder
  | graphUtils | graphPassUtil
  deriving DecidableEq, Repr

def Recorder.record : Recorder → List (Option NodeId) → Option NodeId → Cmd (NodeDescs M) Unit
  | graphUtils => GraphUtils.recordOriginalNamesOf
  | graphPassUtil => GraphPassUtil.recordOriginalNames

mutual

/-- A node that was fused from others, each of which may have been fused. -/
inductive FusionTree
  | leaf (node : NodeId)
  | fused (recorder : Recorder) (node : NodeId) (parts : FusionParts)

/-- The nodes a node is fused from, at least one. -/
inductive FusionParts
  | last (part : FusionTree)
  | cons (part : FusionTree) (parts : FusionParts)

end

/-- The node that is left. -/
def FusionTree.root : FusionTree → NodeId
  | leaf node => node
  | fused _ node _ => node

def FusionParts.roots : FusionParts → List NodeId
  | last part => [part.root]
  | cons part parts => part.root :: parts.roots

mutual

/-- The nodes that were not fused, in order. -/
def FusionTree.leaves : FusionTree → List NodeId
  | .leaf node => [node]
  | .fused _ _ parts => parts.leaves

def FusionParts.leaves : FusionParts → List NodeId
  | .last part => part.leaves
  | .cons part parts => part.leaves ++ parts.leaves

end

mutual

/-- The nodes that were fused, each after its parts. -/
def FusionTree.fusions : FusionTree → List NodeId
  | .leaf _ => []
  | .fused _ node parts => parts.fusions ++ [node]

def FusionParts.fusions : FusionParts → List NodeId
  | .last part => part.fusions
  | .cons part parts => part.fusions ++ parts.fusions

end

mutual

/-- Records each fusion after its parts. -/
def FusionTree.record : FusionTree → Cmd (NodeDescs M) Unit
  | .leaf _ => pure ()
  | .fused recorder node parts => do
    parts.record
    recorder.record (parts.roots.map some) (some node)

def FusionParts.record : FusionParts → Cmd (NodeDescs M) Unit
  | .last part => part.record
  | .cons part parts => do
    part.record
    parts.record

end

end Metadef
