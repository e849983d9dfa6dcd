import Metadef.TopoSort

/-!
# Subgraphs

The functions of `compute_graph.cc` on the graphs registered in a graph: the list and the map that hold them, the walk over the
nodes of a graph and of its subgraphs, and the sort of all of them.
-/

namespace Metadef

namespace ComputeGraph

/-! ## The registries -/

/-- `AddSubGraph`, the obsolete function: whatever the name of the graph held is replaced. -/
def addSubGraph (this : GraphId) (subGraph : Option GraphId) : Cmd Heap (Option GraphId) := do
  let some sub := subGraph | return none
  edit this fun g => { g with subGraph := g.subGraph ++ [sub] }
  let h ← get
  edit this fun g => { g with namesToSubgraph := g.namesToSubgraph.assign (h.graph sub).name sub }
  return some sub

/-- `RemoveSubGraph`, the obsolete function: the name of the graph goes, and the graph, whether or not it is what the name
holds. -/
def removeSubGraph (this : GraphId) (subGraph : Option GraphId) : Cmd Heap Bool := do
  let some sub := subGraph | return false
  let h ← get
  edit this fun g => { g with namesToSubgraph := g.namesToSubgraph.erase (h.graph sub).name }
  edit this fun g => { g with subGraph := g.subGraph.erase sub }
  return true

/-- Whether a graph has a parent graph and a parent node of that graph. -/
def hasParents (h : Heap) (sub : GraphId) : Bool :=
  match (h.graph sub).parentGraph, (h.graph sub).parentNode with
  | some parentGraph, some parentNode => (h.node parentNode).ownerGraph = some parentGraph
  | _, _ => false

/-- `AddSubgraph` under a name. -/
def addSubgraph (this : GraphId) (name : String) (subgraph : Option GraphId) : Cmd Heap Bool := do
  let some sub := subgraph | return false
  let h ← get
  if !hasParents h sub then return false
  if (h.graph this).namesToSubgraph.contains name then return false
  edit this fun g => { g with subGraph := g.subGraph ++ [sub] }
  edit this fun g => { g with namesToSubgraph := g.namesToSubgraph.assign name sub }
  return true

/-- `AddSubgraph` under the name of the graph. -/
def addSubgraphByOwnName (this : GraphId) (subgraph : Option GraphId) : Cmd Heap Bool := do
  let some sub := subgraph | return false
  let h ← get
  addSubgraph this (h.graph sub).name (some sub)

/-- `RemoveSubgraph` of a name. -/
def removeSubgraph (this : GraphId) (name : String) : Cmd Heap Unit := do
  let h ← get
  let some sub := (h.graph this).namesToSubgraph.find name | return ()
  edit this fun g => { g with subGraph := g.subGraph.erase sub }
  edit this fun g => { g with namesToSubgraph := g.namesToSubgraph.erase name }

/-- `RemoveSubgraph` of a graph, by its name. -/
def removeSubgraphByOwnName (this : GraphId) (subgraph : Option GraphId) : Cmd Heap Unit := do
  let some sub := subgraph | return ()
  let h ← get
  removeSubgraph this (h.graph sub).name

/-! ## Graphs below a graph -/

/-- `GetSubgraph`: what the graph without a parent above has registered under a name. How many parents may be climbed stands
for whether it returns. -/
def getSubgraph (h : Heap) : Nat → GraphId → String → Option (Option GraphId)
  | 0, _, _ => none
  | fuel + 1, this, name =>
    match (h.graph this).parentGraph with
    | none => some ((h.graph this).namesToSubgraph.find name)
    | some parent => getSubgraph h fuel parent name

/-- The state of the walk over the nodes of a graph and of its subgraphs. -/
structure NodeWalk where
  subgraphs : List GraphId := []
  allNodes : List NodeId := []
  candidates : List NodeId := []

/-- Collects the subgraph of an instance name, and puts its nodes before the candidates. -/
def enterSubgraph (h : Heap) (fuel : Nat) (this : GraphId) (s : NodeWalk) (name : String) : Option NodeWalk :=
  (getSubgraph h fuel this name).map fun subgraph =>
    match subgraph with
    | none => s
    | some sub => { s with subgraphs := s.subgraphs ++ [sub], candidates := (h.graph sub).nodes ++ s.candidates }

/-- The loop of `AllGraphNodes`. -/
def walkNodes (h : Heap) (this : GraphId) : Nat → NodeWalk → Option NodeWalk
  | 0, _ => none
  | fuel + 1, s =>
    match s.candidates with
    | [] => some s
    | node :: candidates =>
      let s := { s with allNodes := s.allNodes ++ [node], candidates }
      (((h.desc node).subgraphInstanceNames.reverse).foldlM (enterSubgraph h fuel this) s).bind (walkNodes h this fuel)

/-- `AllGraphNodes`: the nodes, and the subgraphs as they are met. -/
def allGraphNodes (h : Heap) (fuel : Nat) (this : GraphId) : Option (List NodeId × List GraphId) :=
  (walkNodes h this fuel { candidates := (h.graph this).nodes }).map fun s => (s.allNodes, s.subgraphs)

def getAllNodes (h : Heap) (fuel : Nat) (this : GraphId) : Option (List NodeId) := (allGraphNodes h fuel this).map Prod.fst

/-- `TopologicalSorting`: the graph and the graphs of the list are sorted, the nodes of all of them numbered, and the list
replaced by the subgraphs met when they are as many. -/
def topologicalSorting (fuel : Nat) (runMode : Option Int) (this : GraphId) : Cmd Heap Bool := do
  if !(← topologicalSortingGraph fuel runMode false this) then return false
  let h ← get
  if (h.graph this).subGraph.isEmpty then return true
  if !(← Cmd.eachOk (topologicalSortingGraph fuel runMode false) (h.graph this).subGraph) then return false
  let h ← get
  match allGraphNodes h fuel this with
  | none => Cmd.undef
  | some (nodes, subgraphs) =>
    modify (setIds nodes 0)
    if (h.graph this).subGraph.length ≠ subgraphs.length then return true
    edit this fun g => { g with subGraph := subgraphs }
    return true

end ComputeGraph

/-! ## Runs on the registries -/

/-- A call on the registries of a graph. A pointer that may be null is an option. -/
inductive RegistryCall where
  | addSubgraph (name : String) (subgraph : Option GraphId)
  | addSubgraphByOwnName (subgraph : Option GraphId)
  | addSubGraph (subGraph : Option GraphId)
  | removeSubgraph (name : String)
  | removeSubgraphByOwnName (subgraph : Option GraphId)
  | removeSubGraph (subGraph : Option GraphId)

namespace RegistryCall

variable (g : GraphId)

/-- The function a call is of, applied to the graph and its arguments. Only what it does to the heap counts. -/
def run : RegistryCall → Cmd Heap Unit
  | addSubgraph name subgraph => do let _ ← ComputeGraph.addSubgraph g name subgraph
  | addSubgraphByOwnName subgraph => do let _ ← ComputeGraph.addSubgraphByOwnName g subgraph
  | addSubGraph subGraph => do let _ ← ComputeGraph.addSubGraph g subGraph
  | removeSubgraph name => ComputeGraph.removeSubgraph g name
  | removeSubgraphByOwnName subgraph => ComputeGraph.removeSubgraphByOwnName g subgraph
  | removeSubGraph subGraph => do let _ ← ComputeGraph.removeSubGraph g subGraph

/-- The heap after a call. -/
def step (h : Heap) (c : RegistryCall) : Option Heap := (c.run g h).map Prod.snd

end RegistryCall

end Metadef
