import Metadef.Lib.Marking
import Metadef.RefRelation

/-!
# The subgraphs of a node

`RemoveSubgraphsOnNode` of `node_utils.cc`: the subgraphs of a node, and those of the nodes in them, go from the root graph.
-/

namespace Metadef

namespace NodeUtils

open ComputeGraph RefRelations

/-- The names held by the nodes of the graph of a name, none when there is no such graph. The root graph has no graph above, so it is
looked up there and `GetSubgraph` returns. -/
def namesBelow (h : Heap) (fuel : Nat) (rootGraph : GraphId) (graphName : String) : Option (List String) :=
  (getSubgraph h fuel rootGraph graphName).join.map fun subgraph =>
    (h.graph subgraph).nodes.flatMap fun subNode => (h.desc subNode).subgraphInstanceNames

/-- The loop over the names of the node. Each is taken off the node, and the search for the names below begins with it, whether or not
it was met before. -/
def collectSubgraphs (fuel : Nat) (rootGraph : GraphId) (node : NodeId) : List String → List String →
    Cmd Heap (Option (List String))
  | [], subgraphToRemove => return some subgraphToRemove
  | subgraphName :: subgraphNames, subgraphToRemove => do
    let _ ← Node.editOp node fun op => (true, op.removeSubgraphInstanceName subgraphName)
    let h ← get
    match Marking.search (namesBelow h fuel rootGraph) fuel [subgraphName] (subgraphToRemove.insert subgraphName) with
    | none => Cmd.undef
    | some none => return none
    | some (some met) => collectSubgraphs fuel rootGraph node subgraphNames met

/-- `RemoveSubgraphsOnNode`. The names met are a set, gone through in order. -/
def removeSubgraphsOnNode (fuel : Nat) (node : Option NodeId) : Cmd Heap Bool := do
  let some node := node | return false
  let h ← get
  let subgraphNames := (h.desc node).subgraphInstanceNames
  if subgraphNames.isEmpty then return true
  let some ownerGraph := (h.node node).ownerGraph | return false
  let some rootGraph := findRootGraph h fuel ownerGraph | Cmd.undef
  let some subgraphToRemove ← collectSubgraphs fuel rootGraph node subgraphNames [] | return false
  Cmd.each (fun name => do removeSubgraph rootGraph name; return true) (subgraphToRemove.insertionSort (· ≤ ·))
  return true

end NodeUtils

/-!
## Removing a node with its subgraphs

`RemoveNodeWithoutRelink` of `graph_utils.cc`: a node goes from the lists of its graph, and the subgraphs below it from the
registries of the root graph. Its edges stay.
-/

namespace GraphUtils

open ComputeGraph RefRelations

/-- `RemoveSubgraphRecursively`. The loop over the candidates is that of `AllGraphNodes`, begun with the node. -/
def removeSubgraphRecursively (fuel : Nat) (computeGraph : Option GraphId) (removeNode : Option NodeId) : Cmd Heap Bool := do
  let some computeGraph := computeGraph | return false
  let some removeNode := removeNode | return false
  let h ← get
  if removeNode ∉ (h.graph computeGraph).nodes then return false
  let some rootGraph := findRootGraph h fuel computeGraph | Cmd.undef
  let some walk := walkNodes h rootGraph fuel { candidates := [removeNode] } | Cmd.undef
  Cmd.eachOk (fun removeGraph => removeSubGraph rootGraph (some removeGraph)) walk.subgraphs

def removeNodeWithoutRelink (fuel : Nat) (computeGraph : Option GraphId) (node : Option NodeId) : Cmd Heap Bool := do
  let some computeGraph := computeGraph | return false
  let some node := node | return false
  let _ ← removeInputNode computeGraph (some node)
  let _ ← removeOutputNode computeGraph (some node)
  if !(← removeSubgraphRecursively fuel (some computeGraph) (some node)) then return false
  let h ← get
  if node ∉ (h.graph computeGraph).nodes then return false
  edit computeGraph fun g => g.eraseFromNodeList node
  return true

end GraphUtils

end Metadef
