import Metadef.RefRelation

/-!
# Building reference relations and the graph they are built for

The root graph is meant to be referred to, but the reference is to the graph passed in, which the root is then assigned to. A graph
without a parent is assigned to itself; any other becomes a copy of its root, which shows unless it was one in all that counts.
-/

namespace Metadef

open Function

namespace RefGraphs

variable {α : Type}

/-- Two graphs are alike in name, nodes, inputs, outputs, attributes and registered subgraphs. -/
structure Alike (s s' : RefGraphs α) (g g' : GraphId) : Prop where
  name : (s.heap.graph g).name = (s'.heap.graph g').name
  nodes : (s.heap.graph g).nodes = (s'.heap.graph g').nodes
  inputNodes : (s.heap.graph g).inputNodes = (s'.heap.graph g').inputNodes
  outputNodesInfo : (s.heap.graph g).outputNodesInfo = (s'.heap.graph g').outputNodesInfo
  attrs : s.attrs g = s'.attrs g'
  subGraph : (s.heap.graph g).subGraph = (s'.heap.graph g').subGraph
  namesToSubgraph : (s.heap.graph g).namesToSubgraph = (s'.heap.graph g').namesToSubgraph

/-- The objects of the graphs, with the links between nodes, and all graphs but one are the same. -/
structure SameObjects (s s' : RefGraphs α) (g : GraphId) : Prop where
  op : s'.heap.op = s.heap.op
  node : s'.heap.node = s.heap.node
  anchor : s'.heap.anchor = s.heap.anchor
  others : ∀ g', g' ≠ g → s'.heap.graph g' = s.heap.graph g' ∧ s'.attrs g' = s.attrs g'

/-- The graph at the top of the parents of a graph. -/
def IsRoot (s : RefGraphs α) (root g : GraphId) : Prop := ∃ fuel, RefRelations.findRootGraph s.heap fuel g = some root

/-- Relations were built for the nodes found from a graph, with the subgraphs its root has, and the graph was left as it was. -/
structure Related (x : RefIndexes) (address : NodeId → Nat) (fuel : Nat) (g : GraphId) (r : RefRelations) (s s' : RefGraphs α)
    (built : RefRelations × Option RefFault) : Prop where
  kept : s.Alike s' g g
  objects : s.SameObjects s' g
  related : ∃ root nodes fuel', s.IsRoot root g ∧ ComputeGraph.getAllNodes s.heap fuel' g = some nodes ∧
    built = RefRelations.relate s.heap x address fuel root nodes r

end RefGraphs

namespace RefRelationsAux

open RefRelations

variable {α : Type} {h : Heap} {x : RefIndexes} {g root : GraphId}

/-! ## The root above -/

variable {fuel : Nat} {s : RefGraphs α}

theorem findRootGraph_mono (hroot : findRootGraph h fuel g = some root) (k : Nat) : findRootGraph h (fuel + k) g = some root := by
  induction fuel generalizing g with
  | zero => cases hroot
  | succ fuel ih =>
    rw [Nat.succ_add]
    unfold findRootGraph at hroot ⊢
    split at hroot
    next => exact hroot
    next parent hp => simpa [hp] using ih hroot

/-- The root has no parent, and the subgraphs a graph has are those registered in it. -/
theorem getSubgraph_of_root (hroot : findRootGraph h fuel g = some root) (name : String) : (h.graph root).parentGraph = none ∧
      ComputeGraph.getSubgraph h fuel g name = some ((h.graph root).namesToSubgraph.find name) := by
  induction fuel generalizing g with
  | zero => cases hroot
  | succ fuel ih =>
    unfold findRootGraph at hroot
    unfold ComputeGraph.getSubgraph
    split at hroot
    next hp =>
      obtain rfl := Option.some.inj hroot
      simp [hp]
    next parent hp => simpa [hp] using ih hroot

/-! ## The graph overwritten -/

section Overwritten

variable {X : ComputeGraph}

theorem nodes_setGraph (hnodes : X.nodes = (h.graph g).nodes) (g' : GraphId) :
    ((h.setGraph g X).graph g').nodes = (h.graph g').nodes := by
  rw [Heap.setGraph_graph]
  split
  next hg => rw [hg, hnodes]
  next => rfl

theorem nodeRefs_congr {fuel : Nat} (hnodes : X.nodes = (h.graph g).nodes)
    (hsub : ∀ name, ComputeGraph.getSubgraph (h.setGraph g X) fuel g name = ComputeGraph.getSubgraph h fuel root name)
    (n : NodeId) : nodeRefs (h.setGraph g X) x fuel g n = nodeRefs h x fuel root n := by
  have hfound : ∀ type names i found, getDataAndNetoutputOfSubGraph (h.setGraph g X) fuel g type names i found =
      getDataAndNetoutputOfSubGraph h fuel root type names i found := by
    intro type names
    induction names with
    | nil => exact fun _ _ => rfl
    | cons name names ih =>
      intro i found
      unfold getDataAndNetoutputOfSubGraph
      rw [hsub]
      cases ComputeGraph.getSubgraph h fuel root name with
      | none => rfl
      | some sub =>
        cases sub with
        | none => exact ih i found
        | some sub =>
          simp only [nodes_setGraph hnodes, ih]
          rfl
  unfold nodeRefs
  simp only [hfound]
  rfl

theorem relate_congr {fuel : Nat} (hnodes : X.nodes = (h.graph g).nodes)
    (hsub : ∀ name, ComputeGraph.getSubgraph (h.setGraph g X) fuel g name = ComputeGraph.getSubgraph h fuel root name)
    (address : NodeId → Nat) (nodes : List NodeId) (r : RefRelations) :
    relate (h.setGraph g X) x address fuel g nodes r = relate h x address fuel root nodes r := by
  have hrelate : relateNodes (h.setGraph g X) x fuel g nodes r = relateNodes h x fuel root nodes r := by
    induction nodes generalizing r with
    | nil => rfl
    | cons n nodes ih =>
      unfold relateNodes
      rw [nodeRefs_congr hnodes hsub]
      cases nodeRefs h x fuel root n with
      | error => rfl
      | ok refs => exact ih _
  unfold relate
  rw [hrelate]

/-- The walk from a graph finds what it finds once the graph is like its root. -/
theorem getAllNodes_of_overwritten {fuel up : Nat} {nodes : List NodeId} (hnodes : X.nodes = (h.graph g).nodes)
    (hsub : ∀ k name, ComputeGraph.getSubgraph (h.setGraph g X) (k + 1) g name = ComputeGraph.getSubgraph h (k + 1 + up) g name)
    (hall : ComputeGraph.getAllNodes (h.setGraph g X) fuel g = some nodes) :
    ComputeGraph.getAllNodes h (fuel + up) g = some nodes := by
  have henter : ∀ k (names : List String) s t, names.foldlM (ComputeGraph.enterSubgraph (h.setGraph g X) k g) s = some t →
      names.foldlM (ComputeGraph.enterSubgraph h (k + up) g) s = some t := by
    intro k names
    induction names with
    | nil => exact fun s t ht => ht
    | cons name names ih =>
      intro s t ht
      rw [List.foldlM_cons] at ht ⊢
      cases k with
      | zero => cases ht
      | succ k =>
        have hone : ComputeGraph.enterSubgraph (h.setGraph g X) (k + 1) g s name =
            ComputeGraph.enterSubgraph h (k + 1 + up) g s name := by
          unfold ComputeGraph.enterSubgraph
          simp only [hsub, nodes_setGraph hnodes]
        rw [hone] at ht
        cases hs : ComputeGraph.enterSubgraph h (k + 1 + up) g s name with
        | none => simp [hs] at ht
        | some s' =>
          rw [hs] at ht
          exact ih s' t ht
  have hwalk : ∀ fuel s t, ComputeGraph.walkNodes (h.setGraph g X) g fuel s = some t →
      ComputeGraph.walkNodes h g (fuel + up) s = some t := by
    intro fuel
    induction fuel with
    | zero => exact fun s t ht => by cases ht
    | succ fuel ih =>
      intro s t ht
      rw [Nat.succ_add]
      unfold ComputeGraph.walkNodes at ht ⊢
      split at ht
      next => exact ht
      next node candidates hc =>
        obtain ⟨s', hs', ht⟩ := Option.bind_eq_some_iff.mp ht
        exact Option.bind_eq_some_iff.mpr ⟨s', henter fuel _ _ s' hs', ih s' t ht⟩
  unfold ComputeGraph.getAllNodes ComputeGraph.allGraphNodes at hall ⊢
  rw [hnodes.symm]
  simp only [Option.map_map, Option.map_eq_some_iff] at hall ⊢
  obtain ⟨t, ht, hnodes⟩ := hall
  rw [Heap.setGraph_graph, if_pos rfl] at ht
  exact ⟨t, hwalk fuel _ t ht, hnodes⟩

end Overwritten

/-- Building for a graph leaves its objects alone, and the graph a copy of its root or, without a parent, of itself. -/
theorem getRootGraph_spec {s' : RefGraphs α} (hs : getRootGraph fuel g g s = some s') :
    ∃ root, s.IsRoot root g ∧ s' = s.assign g root := by
  unfold getRootGraph at hs
  split at hs
  next hp => exact ⟨g, ⟨1, by simp [findRootGraph, hp]⟩, (Option.some.inj hs).symm⟩
  next parent hp =>
    obtain ⟨root, hroot, rfl⟩ := Option.map_eq_some_iff.mp hs
    exact ⟨root, ⟨fuel + 1, by simp [findRootGraph, hp, hroot]⟩, rfl⟩

theorem isRoot_unique {root root' : GraphId} (hr : s.IsRoot root g) (hr' : s.IsRoot root' g) : root = root' := by
  obtain ⟨fuel, hf⟩ := hr
  obtain ⟨fuel', hf'⟩ := hr'
  have h := findRootGraph_mono hf fuel'
  rw [Nat.add_comm, findRootGraph_mono hf' fuel] at h
  exact (Option.some.inj h).symm

theorem sameObjects_assign (s : RefGraphs α) (g root : GraphId) : s.SameObjects (s.assign g root) g where
  op := rfl
  node := rfl
  anchor := rfl
  others := fun _ hg => ⟨update_of_ne hg _ _, update_of_ne hg _ _⟩

/-- What becomes of a graph is what its root is. -/
theorem alike_assign : s.Alike (s.assign g root) g g ↔ s.Alike s g root := by
  have hgraph : (s.assign g root).heap.graph g = s.heap.graph root := update_self ..
  have hattrs : (s.assign g root).attrs g = s.attrs root := update_self ..
  constructor
  · rintro ⟨h1, h2, h3, h4, h5, h6, h7⟩
    rw [hgraph] at h1 h2 h3 h4 h6 h7
    exact ⟨h1, h2, h3, h4, h5.trans hattrs, h6, h7⟩
  · rintro ⟨h1, h2, h3, h4, h5, h6, h7⟩
    rw [← hgraph] at h1 h2 h3 h4 h6 h7
    exact ⟨h1, h2, h3, h4, h5.trans hattrs.symm, h6, h7⟩

end RefRelationsAux

open RefRelationsAux in
/-- The graph is left as it was and its nodes are related exactly when it has no parent, or is like its root in all that counts. -/
theorem buildRefRelations_related_iff {α : Type} (x : RefIndexes) (address : NodeId → Nat) (fuel : Nat) (g : GraphId)
    (r : RefRelations) (s s' : RefGraphs α) (built : RefRelations × Option RefFault)
    (h : RefRelations.buildRefRelations x address fuel g r s = some (built, s')) :
    s.Related x address fuel g r s' built ↔
      (s.heap.graph g).parentGraph = none ∨ ∃ root, s.IsRoot root g ∧ s.Alike s g root := by
  obtain ⟨s₁, hs₁, h⟩ := Option.bind_eq_some_iff.mp h
  obtain ⟨nodes, hnodes, h⟩ := Option.bind_eq_some_iff.mp h
  obtain ⟨hbuilt, rfl⟩ := Cmd.of_return h
  obtain ⟨root, hroot, rfl⟩ := getRootGraph_spec hs₁
  constructor
  · exact fun hrel => .inr ⟨root, hroot, alike_assign.mp hrel.kept⟩
  · intro hcond
    have halike : s.Alike s g root := by
      rcases hcond with hp | ⟨root', hroot', halike⟩
      · have hself : s.IsRoot g g := ⟨1, by simp [RefRelations.findRootGraph, hp]⟩
        rw [isRoot_unique hroot hself]
        exact ⟨rfl, rfl, rfl, rfl, rfl, rfl, rfl⟩
      · rwa [isRoot_unique hroot hroot']
    obtain ⟨up, hup⟩ := hroot
    have hrootless := (getSubgraph_of_root hup "").1
    have hsub : ∀ k name, ComputeGraph.getSubgraph (s.heap.setGraph g (s.heap.graph root)) (k + 1) g name =
        some ((s.heap.graph root).namesToSubgraph.find name) := by
      intro k name
      simp [ComputeGraph.getSubgraph, hrootless]
    refine ⟨alike_assign.mpr halike, sameObjects_assign s g root, root, nodes, fuel + up, ⟨up, hup⟩, ?_, ?_⟩
    · refine getAllNodes_of_overwritten halike.nodes.symm (fun k name => ?_) hnodes
      have hgo := findRootGraph_mono hup (k + 1)
      rw [Nat.add_comm up] at hgo
      rw [hsub, (getSubgraph_of_root hgo name).2]
    · rw [← hbuilt]
      refine relate_congr halike.nodes.symm (fun name => ?_) address nodes r
      cases fuel with
      | zero => rfl
      | succ k =>
        rw [hsub]
        simp [ComputeGraph.getSubgraph, hrootless]

namespace RefRelationsWitness

open RefRelations

/-- A root graph and a graph below it, each with a node. -/
def nested : RefGraphs Unit where
  heap := { Heap.empty with
    graph := fun g => if g = 0 then { name := "root", nodes := [0] } else { name := "sub", nodes := [1], parentGraph := some 0 } }
  attrs := fun _ => ()

theorem buildRefRelations_root :
    nested.Related {} id 2 0 {} (nested.assign 0 0) ({}, none) ↔
      (nested.heap.graph 0).parentGraph = none ∨ ∃ root, nested.IsRoot root 0 ∧ nested.Alike nested 0 root :=
  buildRefRelations_related_iff {} id 2 0 {} nested (nested.assign 0 0) ({}, none) rfl

/-- The graph below becomes the root. -/
theorem buildRefRelations_related_false :
    ¬ ∀ (x : RefIndexes) (address : NodeId → Nat) (fuel : Nat) (g : GraphId) (r : RefRelations) (s s' : RefGraphs Unit)
      (built : RefRelations × Option RefFault), buildRefRelations x address fuel g r s = some (built, s') →
        s.Related x address fuel g r s' built := by
  intro hall
  have hkept := (hall {} id 2 1 {} nested (nested.assign 1 0) ({}, none) rfl).kept
  have hname : "sub" = "root" := hkept.name
  simp at hname

end RefRelationsWitness

end Metadef
