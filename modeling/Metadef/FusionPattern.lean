import Mathlib.Data.List.Sort
import Metadef.Node

/-!
# Fusion patterns

The pattern builder of `fusion_pattern.cc`: descriptions of ops under an identifier each, their inputs, and the one that is the
output. An error is recorded, and ends the building at the end.
-/

namespace Metadef

/-- The pointers to the descriptions of a pattern, in the order they were made. -/
abbrev PatternOpId := Nat

/-- The description of an op: its identifier, the types it allows, its inputs, and whether it may match several nodes. -/
structure PatternOp where
  id : String
  types : List String
  inputs : List PatternOpId := []
  repeatable : Bool := false
  isOutput : Bool := false
  deriving DecidableEq, Repr, Inhabited

structure FusionPattern where
  name : String := ""
  ops : List PatternOp := []
  opMap : OrderedMap String PatternOpId := []
  output : Option PatternOpId := none
  hasError : Bool := false
  deriving DecidableEq, Repr

namespace FusionPattern

variable (p : FusionPattern)

def setName (name : String) : FusionPattern := { p with name }

def setError : FusionPattern := { p with hasError := true }

/-- The description under an identifier, null when there is none. -/
def getOpDesc (id : String) : Option PatternOpId := p.opMap.find id

/-- What a pointer points to. -/
def op (i : PatternOpId) : PatternOp := p.ops.getD i default

/-- Writes the description a pointer points to. -/
def setOp (i : PatternOpId) (op : PatternOp) : FusionPattern := { p with ops := p.ops.set i op }

/-- `AddOpDesc`. -/
def addOpDesc (id : String) (types : List String) : FusionPattern :=
  if id = "" then p.setError
  else if (p.getOpDesc id).isSome then p.setError
  else { p with ops := p.ops ++ [{ id, types }], opMap := p.opMap.assign id p.ops.length }

/-- The loop of `SetInputs`: the inputs named are appended until one is not there. -/
def pushInputs (i : PatternOpId) : List String → FusionPattern → FusionPattern
  | [], p => p
  | inputId :: inputIds, p =>
    match p.getOpDesc inputId with
    | none => p.setError
    | some input => pushInputs i inputIds (p.setOp i { p.op i with inputs := (p.op i).inputs ++ [input] })

/-- `SetInputs`: what inputs there were go. -/
def setInputs (id : String) (inputIds : List String) : FusionPattern :=
  if id = "" then p.setError
  else
    match p.getOpDesc id with
    | none => p.setError
    | some i => pushInputs i inputIds (p.setOp i { p.op i with inputs := [] })

/-- `SetOutput`. -/
def setOutput (id : String) : FusionPattern :=
  if id = "" then p.setError
  else
    match p.getOpDesc id with
    | none => p.setError
    | some i => p.setOp i { p.op i with isOutput := true }

/-- The loop of `Build`: the first op that is an output becomes the output, another is an error. -/
def findOutput : List PatternOpId → FusionPattern → FusionPattern
  | [], p => p
  | i :: ops, p =>
    if (p.op i).isOutput then
      if p.output.isSome then p.setError else findOutput ops { p with output := some i }
    else findOutput ops p

/-- `Build`: whether there was no error. -/
def build : FusionPattern × Bool :=
  if p.hasError then (p, false)
  else
    let p := findOutput (List.range p.ops.length) p
    let p := if p.output.isNone then p.setError else p
    (p, !p.hasError)

/-- `GetInputs`. -/
def getInputs (i : PatternOpId) : List PatternOpId := (p.op i).inputs

/-- `GetOutput`. -/
def getOutput : Option PatternOpId := p.output

end FusionPattern

/-! ## Building -/

/-- A call on a pattern. A description handed out is marked repeatable through its pointer. -/
inductive PatternCall where
  | setName (name : String)
  | addOpDesc (id : String) (types : List String)
  | setInputs (id : String) (inputIds : List String)
  | setOutput (id : String)
  | setRepeatable (i : PatternOpId) (repeatable : Bool)

namespace PatternCall

/-- The pattern after a call. -/
def run (p : FusionPattern) : PatternCall → FusionPattern
  | setName name => p.setName name
  | addOpDesc id types => p.addOpDesc id types
  | setInputs id inputIds => p.setInputs id inputIds
  | setOutput id => p.setOutput id
  | setRepeatable i repeatable => p.setOp i { p.op i with repeatable }

/-- The pattern after some calls. -/
def runAll (calls : List PatternCall) : FusionPattern := calls.foldl run {}

end PatternCall

/-!
## Matching fusion patterns

The search of `pattern_fusion_base_pass_impl.cc` for the nodes a pattern stands for: it starts from a node for the output of the
pattern and gives the sources of its inputs, one after the other, to the inputs of the pattern that allow them.
-/

/-- `NodeUtils::GetNodeType`: the type of a node, for a framework op the original type its attribute gives. -/
def NodeUtils.getNodeType (originalType : OpId → String) (h : Heap) (n : NodeId) : String :=
  if Node.getType h n ≠ "FrameworkOp" then Node.getType h n else originalType (h.node n).op

/-- The nodes matched by each op of a pattern. -/
abbrev Mapping := OrderedMap PatternOpId (List NodeId)

namespace PatternFusion

/-- What an op is mapped to so far. -/
def nodesOf (m : Mapping) (op : PatternOpId) : List NodeId := (OrderedMap.find m op).getD []

/-- `mapping[op].push_back(node)`. -/
def pushNode (m : Mapping) (op : PatternOpId) (n : NodeId) : Mapping := m.assign op (nodesOf m op ++ [n])

/-- `IsMatched`: the node was stored for the op. -/
def isMatched (op : PatternOpId) (node : NodeId) (m : Mapping) : Bool := (nodesOf m op).contains node

/-- `IsOpTypeExist`. -/
def isOpTypeExist (type : String) (types : List String) : Bool := types.contains type

/-- The candidates, each a node with the op it is for, and the mapping. -/
structure Search where
  candidates : List (NodeId × PatternOpId) := []
  mapping : Mapping := []
  deriving DecidableEq, Repr

section Matching

variable (originalType : OpId → String) (h : Heap) (p : FusionPattern)

/-- `GetInDataAnchors`: the inputs with a source. -/
def getInDataAnchors (n : NodeId) : List AnchorId :=
  (h.node n).inDataAnchors.filter fun a => (InDataAnchor.getPeerOutAnchor h a).isSome

/-- The inputs with a source, in the order of their indexes. -/
def sortedAnchors (n : NodeId) : List AnchorId :=
  (getInDataAnchors h n).insertionSort fun a b => (h.anchor a).idx ≤ (h.anchor b).idx

/-- The source of an input. -/
def sourceOf (inAnchor : AnchorId) : Option NodeId := (InDataAnchor.getPeerOutAnchor h inAnchor).map h.owner

/-- Whether an op allows the type of a node. -/
def allows (op : PatternOpId) (n : NodeId) : Bool :=
  isOpTypeExist (NodeUtils.getNodeType originalType h n) (p.op op).types || (p.op op).types.isEmpty

/-- The first input of the pattern that allows a node and is not used yet, or repeatable. -/
def choose (inputs : List PatternOpId) (usageFlags : List Bool) (inputNode : NodeId) : Option Nat :=
  (List.range inputs.length).find? fun j =>
    let input := inputs.getD j 0
    allows originalType h p input inputNode && (!usageFlags.getD j false || (p.op input).repeatable)

/-- Stores a node for an op and makes them candidates, unless that was done. -/
def enter (s : Search) (candidate : NodeId × PatternOpId) : Search :=
  if isMatched candidate.2 candidate.1 s.mapping then s
  else { candidates := s.candidates ++ [candidate], mapping := pushNode s.mapping candidate.2 candidate.1 }

/-- One turn of the loop over the input anchors: the source is given to the first input of the pattern that takes it. -/
def matchEdge (inputs : List PatternOpId) (s : List Bool × Search) (inAnchor : AnchorId) : List Bool × Search :=
  match sourceOf h inAnchor with
  | none => s
  | some inputNode =>
    match choose originalType h p inputs s.1 inputNode with
    | none => s
    | some j => (s.1.set j true, enter s.2 (inputNode, inputs.getD j 0))

/-- `MatchAllEdges`. -/
def matchAllEdges (usageFlags : List Bool) : Bool := usageFlags.all id

/-- `MatchFromOutput` of the first candidate. The inputs of a pattern are never null. -/
def matchInputs (node : NodeId) (op : PatternOpId) (s : Search) : Bool × Search :=
  let inputsDesc := p.getInputs op
  if inputsDesc.isEmpty then (true, s)
  else if (Node.getInDataNodes h node).isEmpty then (false, s)
  else
    let inAnchors := sortedAnchors h node
    if inAnchors.isEmpty then (false, s)
    else
      let (usageFlags, s) := inAnchors.foldl (matchEdge originalType h p inputsDesc) (List.replicate inputsDesc.length false, s)
      (matchAllEdges usageFlags, s)

/-- The loop of `MatchFromOutput`. How many candidates are taken stands for whether it ends. The vectors of nodes and of ops are of
one length throughout, so they are one list. -/
def matchLoop : Nat → Search → Option (Bool × Mapping)
  | 0, _ => none
  | fuel + 1, s =>
    match s.candidates with
    | [] => some (true, s.mapping)
    | (node, op) :: _ =>
      let (result, s) := matchInputs originalType h p node op s
      if !result then some (false, s.mapping) else matchLoop fuel { s with candidates := s.candidates.tail }

/-- `MatchFromOutput`. -/
def matchFromOutput (fuel : Nat) (outputNode : Option NodeId) (outputOpDesc : Option PatternOpId) (mapping : Mapping) :
    Option (Bool × Mapping) :=
  match outputNode, outputOpDesc with
  | some node, some op => matchLoop originalType h p fuel { candidates := [(node, op)], mapping := pushNode mapping op node }
  | _, _ => some (false, mapping)

end Matching

/-! ## Reading a mapping -/

/-- `GetNodesFromMapping`. -/
def getNodesFromMapping (m : Mapping) : List NodeId := m.flatMap Prod.snd

/-- `GetNodeFromMapping`: the first node of the op with an identifier. -/
def getNodeFromMapping (p : FusionPattern) (id : String) (m : Mapping) : Option NodeId :=
  (m.find? fun item => (p.op item.1).id = id).bind fun item => item.2.head?

end PatternFusion

end Metadef
