import Metadef.Lib.Preorder
import Metadef.Subgraphs

/-!
# The walk over the nodes of a graph is in preorder

In a graph without a parent the loop of `AllGraphNodes` lists the preorder of the nodes, the children of a node those of the
subgraphs its instance names have in the graph; and it collects these subgraphs.
-/

namespace Metadef

open Option

/-- The graphs a graph has registered under the instance names of a node. -/
def Heap.resolved (h : Heap) (g : GraphId) (n : NodeId) : List GraphId :=
  (h.desc n).subgraphInstanceNames.filterMap (h.graph g).namesToSubgraph.find

/-- The nodes of the subgraphs of a node, in instance order. -/
def Heap.inner (h : Heap) (g : GraphId) (n : NodeId) : List NodeId := (h.resolved g n).flatMap fun x => (h.graph x).nodes

/-- The nodes of a graph and, after each, those inside it. -/
abbrev Heap.NodesInOrder (h : Heap) (g : GraphId) (out : List NodeId) : Prop := Preordered (h.inner g) (h.graph g).nodes out

namespace NodeWalks

open ComputeGraph

variable {h : Heap} {g : GraphId}

theorem getSubgraph_root (hroot : (h.graph g).parentGraph = none) (fuel : Nat) (name : String) :
    getSubgraph h (fuel + 1) g name = some ((h.graph g).namesToSubgraph.find name) := by
  simp [getSubgraph, hroot]

/-- Entering the subgraphs of names from the last to the first collects them so, and puts their nodes in place in order. -/
theorem foldlM_enterSubgraph (hroot : (h.graph g).parentGraph = none) (fuel : Nat) (names : List String) (s : NodeWalk) :
    names.reverse.foldlM (enterSubgraph h (fuel + 1) g) s = some
      { s with subgraphs := s.subgraphs ++ (names.filterMap (h.graph g).namesToSubgraph.find).reverse
               candidates := ((names.filterMap (h.graph g).namesToSubgraph.find).flatMap fun x => (h.graph x).nodes) ++
                 s.candidates } := by
  induction names with
  | nil => simp
  | cons name names ih =>
    rw [List.reverse_cons, List.foldlM_append, ih]
    cases hf : (h.graph g).namesToSubgraph.find name with
    | none => simp [enterSubgraph, getSubgraph_root hroot, hf]
    | some x => simp [enterSubgraph, getSubgraph_root hroot, hf]

/-- The loop is the walk with a worklist. -/
theorem walkNodes_eq (hroot : (h.graph g).parentGraph = none) (fuel : Nat) : ∀ s : NodeWalk,
    walkNodes h g fuel s = (Preordered.walk (h.inner g) fuel s.candidates).map fun out =>
      { subgraphs := s.subgraphs ++ out.flatMap fun n => (h.resolved g n).reverse
        allNodes := s.allNodes ++ out
        candidates := [] } := by
  induction fuel with
  | zero => exact fun _ => rfl
  | succ fuel ih =>
    rintro ⟨subgraphs, allNodes, candidates⟩
    cases candidates with
    | nil => simp [walkNodes, Preordered.walk]
    | cons n candidates =>
      cases fuel with
      | zero =>
        simp only [walkNodes, Preordered.walk, map_none, bind_eq_none_iff]
        exact fun _ _ => trivial
      | succ fuel =>
        simp only [walkNodes, Preordered.walk]
        rw [foldlM_enterSubgraph hroot, bind_some]
        change walkNodes h g (fuel + 1) _ = _
        rw [ih, map_map]
        refine Option.map_congr fun out _ => ?_
        simp [Heap.resolved]

/-- What `AllGraphNodes` returns is the preorder, with the subgraphs met. -/
theorem of_allGraphNodes (hroot : (h.graph g).parentGraph = none) {fuel : Nat} {nodes : List NodeId} {subgraphs : List GraphId}
    (hr : allGraphNodes h fuel g = some (nodes, subgraphs)) :
    h.NodesInOrder g nodes ∧ subgraphs = nodes.flatMap fun n => (h.resolved g n).reverse := by
  rw [allGraphNodes, walkNodes_eq hroot, map_map] at hr
  obtain ⟨out, hw, heq⟩ := Option.map_eq_some_iff.mp hr
  obtain ⟨rfl, rfl⟩ : out = nodes ∧ (out.flatMap fun n => (h.resolved g n).reverse) = subgraphs := by simpa using heq
  exact ⟨Preordered.of_walk hw, rfl⟩

/-- Where there is a preorder, `AllGraphNodes` returns it. -/
theorem allGraphNodes_eq (hroot : (h.graph g).parentGraph = none) {out : List NodeId} (hp : h.NodesInOrder g out) {fuel : Nat}
    (hfuel : out.length < fuel) :
    allGraphNodes h fuel g = some (out, out.flatMap fun n => (h.resolved g n).reverse) := by
  rw [allGraphNodes, walkNodes_eq hroot, hp.walk_eq hfuel]
  simp

end NodeWalks

end Metadef
