import Metadef.Lemmas.GraphSteps
import Metadef.Lemmas.SortOrder
import Metadef.Theorems.LinkSymmetry

/-!
# Sorting is sound

A sort that succeeds lists the nodes of the graph in an order its edges respect and numbers them by it; one that fails
changes nothing.
-/

namespace Metadef

open List Cmd

open Heap ComputeGraph SortRuns SortOrder

/-- What a sort that succeeds makes of a graph: its nodes once each in a new order, their ids their positions, and the
source of each edge before its target, the data edges out of nodes that close a loop apart. -/
structure Heap.SortedFrom (h h' : Heap) (g : GraphId) : Prop where
  perm : (h'.graph g).nodes.Perm (h.graph g).nodes
  once : (h'.graph g).nodes.Nodup
  id : ∀ (i : Nat) n, (h'.graph g).nodes[i]? = some n → (h'.desc n).getId = i
  before : ∀ u ∈ (h.graph g).nodes, ∀ v, h.Ahead u v → ∀ i j : Nat,
    (h'.graph g).nodes[i]? = some u → (h'.graph g).nodes[j]? = some v → i < j

/-- Sorting returns, and does what it should on success and nothing on failure. -/
def Heap.SortsSoundly (h : Heap) (g : GraphId) (fuel : Nat) (runMode : Option Int) (dfsReverse : Bool) : Prop :=
  ∃ ok h', topologicalSortingGraph fuel runMode dfsReverse g h = some (ok, h') ∧
    (ok = true → h.SortedFrom h' g) ∧ (ok = false → h' = h)

/-- No two entries of the list of nodes have one descriptor; so no node is listed twice. -/
def Heap.OwnDescriptors (h : Heap) (g : GraphId) : Prop := ((h.graph g).nodes.map fun n => (h.node n).op).Nodup

instance (h : Heap) (g : GraphId) : Decidable (h.OwnDescriptors g) := inferInstanceAs (Decidable (List.Nodup _))

namespace TopoSoundAux

variable {h : Heap} {g : GraphId} {fuel : Nat} {runMode : Option Int} {dfsReverse : Bool}

/-- A sort that found an order returns true and lists it when it is long enough. -/
theorem sort_of_found {vec : List NodeId} (hv : sortedNodes h fuel runMode dfsReverse g = some (some vec)) :
    topologicalSortingGraph fuel runMode dfsReverse g h =
      if vec.length = (h.graph g).directNodesSize then some (true, listNodes g vec (setIds vec 0 h)) else some (false, h) := by
  unfold topologicalSortingGraph
  simp only [get_bind_apply, hv]
  by_cases hlen : vec.length = (h.graph g).directNodesSize
  · simp [hlen]
  · simp [hlen]

theorem sort_of_refused (hv : sortedNodes h fuel runMode dfsReverse g = some none) :
    topologicalSortingGraph fuel runMode dfsReverse g h = some (false, h) := by
  unfold topologicalSortingGraph
  simp only [get_bind_apply, hv]
  rfl

/-- The heap with the order of a run that visited all nodes listed. -/
theorem sortedFrom_listNodes (hg : Sortable h g) (hloops : h.LoopsClosed g) (hown : h.OwnDescriptors g)
    {s : Kahn.State NodeId} (hs : ValidRun h g s) (hlen : s.visited.length = (h.graph g).nodes.length) :
    h.SortedFrom (listNodes g s.visited (setIds s.visited 0 h)) g := by
  have hnodes : ((listNodes g s.visited (setIds s.visited 0 h)).graph g).nodes = s.visited := by
    unfold listNodes
    rw [Heap.setGraph_graph, if_pos rfl]
  have hnodup : s.visited.Nodup := hs.nodup.of_append_left
  have hsub : s.visited ⊆ (h.graph g).nodes := fun v hv => hs.subset (mem_append_left _ hv)
  have hperm : s.visited.Perm (h.graph g).nodes := (hnodup.subperm hsub).perm_of_length_le (Nat.le_of_eq hlen.symm)
  refine ⟨?_, ?_, ?_, ?_⟩
  · rwa [hnodes]
  · rwa [hnodes]
  · intro i n hn
    rw [hnodes] at hn
    have hops : (s.visited.map fun n => (h.node n).op).Nodup := (hperm.map _).nodup_iff.mpr hown
    have hid : ((setIds s.visited 0 h).desc n).getId = (0 : Nat) + i := setIds_id s.visited 0 h hops i n hn
    have hdesc : (listNodes g s.visited (setIds s.visited 0 h)).desc n = (setIds s.visited 0 h).desc n := rfl
    rw [hdesc]
    omega
  · intro u hu v huv i j hi hj
    rw [hnodes] at hi hj
    obtain ⟨hjlt, hjv⟩ := List.getElem?_eq_some_iff.mp hj
    have hsplit : s.visited = s.visited.take j ++ v :: s.visited.drop (j + 1) := by
      rw [← hjv, getElem_cons_drop, take_append_drop]
    have hin : u ∈ s.visited.take j := source_before hg hloops hs hu huv hsplit
    obtain ⟨i', hi', hget⟩ := mem_take_iff_getElem.mp hin
    have hsame : i' = i := by
      refine (getElem?_inj (Nat.lt_of_lt_of_le hi' (Nat.min_le_right _ _)) hnodup).mp ?_
      rw [hi, getElem?_eq_getElem (Nat.lt_of_lt_of_le hi' (Nat.min_le_right _ _)), hget]
    omega

/-- Sorting leaves which descriptors nodes have. -/
theorem sort_node {ok : Bool} {h' : Heap} (hr : topologicalSortingGraph fuel runMode dfsReverse g h = some (ok, h')) :
    h'.node = h.node := by
  cases hv : sortedNodes h fuel runMode dfsReverse g with
  | none =>
    unfold topologicalSortingGraph at hr
    simp only [get_bind_apply, hv] at hr
    cases hr
  | some r =>
    cases r with
    | none =>
      rw [sort_of_refused hv] at hr
      obtain ⟨-, rfl⟩ := of_return hr
      rfl
    | some vec =>
      rw [sort_of_found hv] at hr
      split at hr
      · obtain ⟨-, rfl⟩ := of_return hr
        exact setIds_node vec 0 h
      · obtain ⟨-, rfl⟩ := of_return hr
        rfl

/-- Nodes numbered by their positions have descriptors of their own. -/
theorem ownDescriptors_of_sorted {h' : Heap} (hsorted : h.SortedFrom h' g) (hnode : h'.node = h.node) : h.OwnDescriptors g := by
  have hinj : ∀ m ∈ (h'.graph g).nodes, ∀ n ∈ (h'.graph g).nodes, (h'.node m).op = (h'.node n).op → m = n := by
    intro m hm n hn hop
    obtain ⟨i, hi⟩ := getElem?_of_mem hm
    obtain ⟨j, hj⟩ := getElem?_of_mem hn
    have hdesc : h'.desc m = h'.desc n := congrArg h'.op hop
    have him := hsorted.id i m hi
    have hjn := hsorted.id j n hj
    rw [hdesc] at him
    obtain rfl : i = j := by omega
    exact Option.some.inj (hi.symm.trans hj)
  unfold Heap.OwnDescriptors
  rw [← hnode, ← (hsorted.perm.map _).nodup_iff]
  exact (nodup_map_iff_inj_on hsorted.once).mpr hinj

end TopoSoundAux

open TopoSoundAux

/-- A graph whose nodes have descriptors of their own is sorted soundly in either mode. A graph whose nodes share one is
sorted soundly only when the sort fails. -/
theorem sorts_soundly (h : Heap) (g : GraphId) (hs : h.Sound) (hd : h.Directed) (hc : h.ClosedGraph g)
    (hsize : (h.graph g).directNodesSize = (h.graph g).nodes.length) (hloops : h.LoopsClosed g)
    (hfan : ∀ n ∈ (h.graph g).nodes, h.inLinks n < uint32Size) (fuel : Nat) (hfuel : (h.graph g).nodes.length < fuel)
    (runMode : Option Int) (dfsReverse : Bool) :
    (h.OwnDescriptors g → h.SortsSoundly g fuel runMode dfsReverse) ∧
      (h.SortsSoundly g fuel runMode dfsReverse → ¬ h.OwnDescriptors g →
        topologicalSortingGraph fuel runMode dfsReverse g h = some (false, h)) := by
  constructor
  · intro hown
    have hg : Sortable h g := ⟨hs, hd, hc, hown.of_map, hfan⟩
    obtain ⟨r, hr⟩ := sortedNodes_returns hg hfuel runMode dfsReverse
    cases r with
    | none => exact ⟨false, h, sort_of_refused hr, nofun, fun _ => rfl⟩
    | some vec =>
      obtain ⟨s, hvalid, rfl⟩ := sortedNodes_valid hg hr
      have hsort := sort_of_found hr
      by_cases hlen : s.visited.length = (h.graph g).directNodesSize
      · rw [if_pos hlen] at hsort
        exact ⟨true, _, hsort, fun _ => sortedFrom_listNodes hg hloops hown hvalid (hlen.trans hsize), nofun⟩
      · rw [if_neg hlen] at hsort
        exact ⟨false, h, hsort, nofun, fun _ => rfl⟩
  · rintro ⟨ok, h', hr, hok, hfail⟩ hshared
    cases ok with
    | false => rw [hr, hfail rfl]
    | true =>
      exact absurd (ownDescriptors_of_sorted (hok rfl) (sort_node hr)) hshared

namespace TopoSoundWitness

/-- Two nodes are made, the first an input of the graph, and the first feeds the second. -/
def feeding : List LinkCall :=
  [.newOp { opDef := { name := "x", type := "Data" }, outputsDesc := [{}] }, .newNode 0,
    .newOp { opDef := { name := "y", type := "Relu" }, inputsDesc := [{}] }, .newNode 1, .addDataEdge (some 2) (some 5)]

/-- The nodes, none of them in a graph yet. -/
def fed : Heap := (LinkCall.runAll feeding).getD .empty

/-- The graph of nodes added in order. -/
def graphOf (nodes : List NodeId) : Heap := GraphSteps.addAll 0 fed nodes

theorem sound_graphOf (nodes : List NodeId) : (graphOf nodes).Sound :=
  GraphSteps.sound_addAll 0 nodes (sound_runAll feeding fed (by decide +kernel) rfl)

/-- Its links are those of an edge ahead. -/
theorem links_graphOf (nodes : List NodeId) (hanchors : (graphOf nodes).anchorCount = 6)
    (hlinks : ∀ a < 6, ∀ b ∈ (graphOf nodes).peers a,
      ((graphOf nodes).kind b).isIn = !((graphOf nodes).kind a).isIn ∧ (graphOf nodes).isLoopLink a b = false ∧
        (graphOf nodes).owner b ∈ ((graphOf nodes).graph 0).nodes) :
    (graphOf nodes).Directed ∧ (graphOf nodes).LoopsClosed 0 ∧
      ∀ a, (graphOf nodes).owner a ∈ ((graphOf nodes).graph 0).nodes → ∀ b ∈ (graphOf nodes).peers a,
        (graphOf nodes).owner b ∈ ((graphOf nodes).graph 0).nodes := by
  have hall := (sound_graphOf nodes).forall_peers fun a ha => hlinks a (hanchors ▸ ha)
  refine ⟨fun a b hb => (hall a b hb).1, ?_, fun a _ b hb => (hall a b hb).2.2⟩
  rintro w - v ⟨a, b, hb, -, -, -, hloop⟩
  rw [(hall a b hb).2.1] at hloop
  cases hloop

theorem sorts_soundly_fed : (graphOf [1, 0]).SortsSoundly 0 3 none true := by
  obtain ⟨hd, hloops, hinside⟩ := links_graphOf [1, 0] (by decide +kernel) (by decide +kernel)
  refine (sorts_soundly (graphOf [1, 0]) 0 (sound_graphOf _) hd ⟨by decide, hinside⟩ (by decide +kernel) hloops
    (by decide +kernel) 3
    (by decide +kernel) none true).1 ?_
  decide +kernel

/-- A node added twice is listed twice after a sort that succeeds. -/
theorem sorts_soundly_false :
    ¬ ∀ (h : Heap) (g : GraphId) (fuel : Nat) (runMode : Option Int) (dfsReverse : Bool), h.Sound → h.Directed →
      h.ClosedGraph g → (h.graph g).directNodesSize = (h.graph g).nodes.length → h.LoopsClosed g →
      (h.graph g).nodes.length < fuel → h.SortsSoundly g fuel runMode dfsReverse := by
  intro hall
  obtain ⟨hd, hloops, hinside⟩ := links_graphOf [0, 0, 1] (by decide +kernel) (by decide +kernel)
  obtain ⟨ok, h', hr, hok, -⟩ := hall (graphOf [0, 0, 1]) 0 4 none false (sound_graphOf _) hd ⟨by decide, hinside⟩
    (by decide +kernel) hloops (by decide +kernel)
  have hfound : sortedNodes (graphOf [0, 0, 1]) 4 none false 0 = some (some [0, 1, 0]) := by decide +kernel
  rw [sort_of_found hfound] at hr
  obtain ⟨rfl, rfl⟩ := of_return hr
  exact absurd (hok rfl).once (by decide +kernel)

end TopoSoundWitness

end Metadef
