import Metadef.FusionPattern

/-!
# Fusion passes

A fusion pass defines patterns, looks for all of their matches in a graph and gives each to a fusion of its own. Of the two base
classes of passes, `pattern_fusion_base_pass.cc` asks for one stream label on the nodes of a match and `graph_fusion_pass_base.cc` does
not. Candidates for the output of a pattern come from an index of the nodes by their types, if the graph has one.
-/

namespace Metadef

/-- The nodes of a type, each type with a map from names to nodes. -/
abbrev NodeTypeMap := OrderedMap String (OrderedMap String NodeId)

structure NodeMapInfo where
  runCount : Int := 0
  nodeTypeMap : NodeTypeMap := []
  deriving DecidableEq, Repr

/-- A graph, and the index it may have. -/
structure PassGraph where
  heap : Heap := .empty
  graph : GraphId := 0
  nodeMapInfo : Option NodeMapInfo := none

inductive FusionStatus
  | success | notChanged | failed
  | other (code : UInt32)
  deriving DecidableEq, Repr

/-! ## Matching -/

section Matching

-- the attributes of ops, and the order a map whose keys are pointers is walked in
variable (originalType : OpId → String) (streamLabel : OpId → Option String) (byPointer : Mapping → Mapping)

namespace PatternFusion

/-- `GetMatchOutputNodes`. Whatever the index has under a type is a candidate if it is of the type and has a source or a consumer. -/
def matchOutputNodes (g : PassGraph) (types : List String) : List NodeId :=
  match g.nodeMapInfo with
  | some info =>
    types.flatMap fun type =>
      (((info.nodeTypeMap.find type).getD []).map Prod.snd).filter fun n =>
        !((Node.getInDataNodes g.heap n).isEmpty && (Node.getOutAllNodes g.heap n).isEmpty) &&
          NodeUtils.getNodeType originalType g.heap n = type
  | none => (g.heap.graph g.graph).nodes.filter fun n => isOpTypeExist (NodeUtils.getNodeType originalType g.heap n) types

/-- The loop of `CheckStreamLabel`: the empty label stands for none so far. -/
def checkLabels : List String → String → Bool
  | [], _ => true
  | label :: labels, streamLabel =>
    if streamLabel = "" then checkLabels labels label
    else if streamLabel ≠ label then false
    else checkLabels labels streamLabel

/-- `CheckStreamLabel`. -/
def checkStreamLabel (h : Heap) (fusedNodes : List NodeId) : Bool :=
  checkLabels (fusedNodes.map fun n => (streamLabel (h.node n).op).getD "null") ""

/-- The loop of `MatchAll` over the candidates: a match that is not accepted ends it. -/
def collectMatches (matchFrom : NodeId → Option (Bool × Mapping)) (accept : Mapping → Bool) :
    List NodeId → List Mapping → Option (Bool × List Mapping)
  | [], mappings => some (!mappings.isEmpty, mappings)
  | node :: nodes, mappings =>
    (matchFrom node).bind fun r =>
      if r.1 then
        if accept r.2 then collectMatches matchFrom accept nodes (mappings ++ [r.2]) else some (false, mappings)
      else collectMatches matchFrom accept nodes mappings

/-- What the two functions `MatchAll` share. -/
def matchAllWith (accept : Mapping → Bool) (fuel : Nat) (g : PassGraph) (p : FusionPattern) : Option (Bool × List Mapping) :=
  match p.getOutput with
  | none => some (false, [])
  | some out =>
    let nodes := matchOutputNodes originalType g (p.op out).types
    if nodes.isEmpty then some (false, [])
    else collectMatches (fun n => matchFromOutput originalType g.heap p fuel (some n) (some out) []) accept nodes []

end PatternFusion

/-- `PatternFusionBasePass::MatchAll`. -/
def PatternFusionBasePass.matchAll (fuel : Nat) (g : PassGraph) (p : FusionPattern) : Option (Bool × List Mapping) :=
  PatternFusion.matchAllWith originalType
    (fun m => PatternFusion.checkStreamLabel streamLabel g.heap (PatternFusion.getNodesFromMapping (byPointer m))) fuel g p

/-- `GraphFusionPassBase::MatchAll`. -/
def GraphFusionPassBase.matchAll (fuel : Nat) (g : PassGraph) (p : FusionPattern) : Option (Bool × List Mapping) :=
  PatternFusion.matchAllWith originalType (fun _ => true) fuel g p

/-- The base classes of passes. -/
inductive PassBase
  | patternFusion | graphFusion
  deriving DecidableEq, Repr

/-- `MatchAll` of a base class. -/
def PassBase.matchAll (base : PassBase) (fuel : Nat) (g : PassGraph) (p : FusionPattern) : Option (Bool × List Mapping) :=
  match base with
  | .patternFusion => PatternFusionBasePass.matchAll originalType streamLabel byPointer fuel g p
  | .graphFusion => GraphFusionPassBase.matchAll originalType fuel g p

end Matching

/-! ## Runs -/

/-- Pointers to patterns, which may be null, and what they point to. -/
structure PassPatterns where
  patterns : List (Option Nat) := []
  pattern : Nat → FusionPattern := fun _ => {}

namespace PassPatterns

/-- Builds a pattern. -/
def buildAt (s : PassPatterns) (i : Nat) : PassPatterns × Bool :=
  let r := (s.pattern i).build
  ({ s with pattern := Function.update s.pattern i r.1 }, r.2)

/-- Builds patterns in turn, and whether all of them were. -/
def buildEach : List (Option Nat) → PassPatterns → Bool → PassPatterns × Bool
  | [], s, ok => (s, ok)
  | none :: rest, s, ok => buildEach rest s ok
  | some i :: rest, s, ok => buildEach rest (s.buildAt i).1 (ok && (s.buildAt i).2)

/-- Builds all patterns that are pointed to. -/
def buildAll (s : PassPatterns) : PassPatterns × Bool := buildEach s.patterns s true

end PassPatterns

section Runs

-- what the pass has besides its patterns, `MatchAll`, and the fusion of a match with what is noted on the nodes after it
variable {σ : Type} (matchAll : PassGraph → FusionPattern → Option (Bool × List Mapping))
  (fusion : Mapping → σ × PassGraph → FusionStatus × (σ × PassGraph))

namespace FusionPass

/-- The loop of `RunOnePattern` over the mappings. -/
def fuseAll : List Mapping → Bool → σ × PassGraph → FusionStatus × Bool × (σ × PassGraph)
  | [], changed, g => (.success, changed, g)
  | m :: rest, changed, g =>
    match fusion m g with
    | (.success, g) => fuseAll rest true g
    | (.notChanged, g) => fuseAll rest changed g
    | (status, g) => (status, changed, g)

/-- `RunOnePattern`. -/
def runOnePattern (g : σ × PassGraph) (p : FusionPattern) : Option (FusionStatus × Bool × (σ × PassGraph)) :=
  (matchAll g.2 p).map fun r => if !r.1 then (.success, false, g) else fuseAll fusion r.2 false g

/-- The loop of `Run` over the patterns. -/
def runPatterns (pattern : Nat → FusionPattern) : List (Option Nat) → Bool → σ × PassGraph → Option (FusionStatus × (σ × PassGraph))
  | [], changed, g => some (if changed then .success else .notChanged, g)
  | none :: rest, changed, g => runPatterns pattern rest changed g
  | some i :: rest, changed, g =>
    (runOnePattern matchAll fusion g (pattern i)).bind fun r =>
      if r.1 ≠ .success then some (r.1, r.2.2) else runPatterns pattern rest (changed || r.2.1) r.2.2

/-- The patterns of a run: those that were kept, or new ones, which are kept whether or not they can be built. -/
def preparePatterns (define : PassPatterns) (kept : PassPatterns) : PassPatterns × Bool :=
  if kept.patterns.isEmpty then define.buildAll else (kept, true)

/-- `++run_count`. -/
def countRun (g : PassGraph) : PassGraph :=
  { g with nodeMapInfo := g.nodeMapInfo.map fun info => { info with runCount := info.runCount + 1 } }

/-- `Run` of a pass that keeps patterns: its status, the graph and the patterns kept afterwards. -/
def run (define : PassPatterns) (kept : PassPatterns) (g : σ × PassGraph) : Option (FusionStatus × (σ × PassGraph) × PassPatterns) :=
  let (kept, ok) := preparePatterns define kept
  if !ok then some (.failed, g, kept)
  else (runPatterns matchAll fusion kept.pattern kept.patterns false (g.1, countRun g.2)).map fun r => (r.1, r.2, kept)

/-- Runs on graphs one after the other: the status, the graph and the patterns of each. -/
def runAll (define : PassPatterns) : List PassGraph → σ → PassPatterns → Option (List (FusionStatus × PassGraph × PassPatterns))
  | [], _, _ => some []
  | g :: gs, own, kept =>
    (run matchAll fusion define kept (own, g)).bind fun r =>
      (runAll define gs r.2.1.1 r.2.2).map fun rs => (r.1, r.2.1.2, r.2.2) :: rs

end FusionPass

end Runs

end Metadef
