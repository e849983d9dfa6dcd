import Metadef.Theorems.Registries

/-!
# Nested graphs

A graph whose subgraphs are registered in it and nest without a cycle, each instance name held once. The walk over its nodes
comes to an end and lists no node twice.
-/

namespace Metadef

open List Registry

open Relation

/-- The entries of the node lists of a graph and of the graphs registered in it. -/
def Heap.modelNodes (h : Heap) (g : GraphId) : List NodeId :=
  (h.graph g).nodes ++ (h.graph g).subGraph.flatMap fun x => (h.graph x).nodes

/-- A graph has a node with another as a subgraph, by the names of the root. -/
def Heap.Nests (h : Heap) (g x y : GraphId) : Prop := ∃ n ∈ (h.graph x).nodes, y ∈ h.resolved g n

/-- The name of a registered graph is held once at most. -/
def Heap.NamesHeldOnce (h : Heap) (g : GraphId) : Prop :=
  ∀ e ∈ (h.graph g).namesToSubgraph, ((h.modelNodes g).flatMap fun n => (h.desc n).subgraphInstanceNames).count e.1 ≤ 1

instance (h : Heap) (g : GraphId) : Decidable (h.NamesHeldOnce g) := inferInstanceAs (Decidable (∀ e ∈ _, _))

/-- A root graph with its subgraphs: all are registered in it and nest without a cycle, each instance name is held once, and no
two entries of node lists have one descriptor. -/
structure Heap.NestedModel (h : Heap) (g : GraphId) : Prop where
  root : (h.graph g).parentGraph = none
  agree : h.RegistriesAgree g
  own : ((h.modelNodes g).map fun n => (h.node n).op).Nodup
  held : h.NamesHeldOnce g
  acyclic : ∀ x, ¬ TransGen (h.Nests g) x x

namespace NestedAux

variable {h : Heap} {g x y : GraphId} {n m : NodeId} {out : List NodeId}

theorem mem_resolved (ha : h.RegistriesAgree g) :
    x ∈ h.resolved g n ↔ ∃ name ∈ (h.desc n).subgraphInstanceNames, (name, x) ∈ (h.graph g).namesToSubgraph := by
  simp only [Heap.resolved, mem_filterMap]
  exact exists_congr fun name => and_congr_right fun _ => find_eq_some ha

theorem registered_of_resolved (ha : h.RegistriesAgree g) (hx : x ∈ h.resolved g n) : x ∈ (h.graph g).subGraph := by
  obtain ⟨name, -, he⟩ := (mem_resolved ha).mp hx
  exact ha.mem_iff.mpr ⟨_, he, rfl⟩

theorem mem_inner : m ∈ h.inner g n ↔ ∃ x ∈ h.resolved g n, m ∈ (h.graph x).nodes := mem_flatMap

/-- The values of keys that are listed once at most are distinct, where no two keys have one value. -/
theorem nodup_filterMap {κ β : Type} [DecidableEq κ] {f : κ → Option β} (hinj : ∀ j k b, f j = some b → f k = some b → j = k) :
    ∀ {l : List κ}, (∀ k b, f k = some b → l.count k ≤ 1) → (l.filterMap f).Nodup := by
  intro l
  induction l with
  | nil => exact fun _ => nodup_nil
  | cons k l ih =>
    intro hcount
    have hrest : (l.filterMap f).Nodup := ih fun j b hj => Nat.le_trans (count_le_count_cons) (hcount j b hj)
    cases hk : f k with
    | none => rwa [filterMap_cons_none hk]
    | some b =>
      rw [filterMap_cons_some hk]
      refine nodup_cons.mpr ⟨fun hb => ?_, hrest⟩
      obtain ⟨j, hj, hjb⟩ := mem_filterMap.mp hb
      obtain rfl := hinj j k b hjb hk
      have hle := hcount j b hjb
      rw [count_cons_self] at hle
      have hpos := count_pos_iff.mpr hj
      omega

/-- No registered graph is a subgraph twice. -/
theorem resolved_nodup (hm : h.NestedModel g) : ((h.modelNodes g).flatMap (h.resolved g)).Nodup := by
  have heq : (h.modelNodes g).flatMap (h.resolved g) =
      ((h.modelNodes g).flatMap fun n => (h.desc n).subgraphInstanceNames).filterMap (h.graph g).namesToSubgraph.find :=
    (filterMap_flatMap ..).symm
  rw [heq]
  refine nodup_filterMap (fun j k x hj hk => ?_) fun k x hk => hm.held _ ((find_eq_some hm.agree).mp hk)
  have hjk := hm.agree.eq_of_value ((find_eq_some hm.agree).mp hj) ((find_eq_some hm.agree).mp hk) rfl
  exact congrArg Prod.fst hjk

theorem modelNodes_nodup (hm : h.NestedModel g) : (h.modelNodes g).Nodup := hm.own.of_map

theorem inner_subset (ha : h.RegistriesAgree g) : h.inner g n ⊆ (h.graph g).subGraph.flatMap fun x => (h.graph x).nodes := by
  intro m hmem
  obtain ⟨x, hx, hmx⟩ := mem_inner.mp hmem
  exact mem_flatMap.mpr ⟨x, registered_of_resolved ha hx, hmx⟩

/-- The walk stays among the nodes of the graph and of those registered. -/
theorem subset_modelNodes (ha : h.RegistriesAgree g) (hp : h.NodesInOrder g out) : out ⊆ h.modelNodes g := by
  intro m hmem
  rcases mem_append.mp (hp.perm.mem_iff.mp hmem) with hroot | hinner
  · exact mem_append_left _ hroot
  · obtain ⟨n, -, hn⟩ := mem_flatMap.mp hinner
    exact mem_append_right _ (inner_subset ha hn)

/-- Nodes with a common subgraph are one. -/
theorem eq_of_resolved (hm : h.NestedModel g) (hmem : m ∈ h.modelNodes g) (hn : n ∈ h.modelNodes g) (hxm : x ∈ h.resolved g m)
    (hxn : x ∈ h.resolved g n) : m = n := by
  by_contra hne
  have hapart := (nodup_flatMap.mp (resolved_nodup hm)).2
  have hsymm : Std.Symm (Function.onFun List.Disjoint (h.resolved g)) := ⟨fun _ _ hd => hd.symm⟩
  exact hapart.forall hmem hn hne hxm hxn

/-- Registered graphs with a common node are one. -/
theorem eq_of_node (hm : h.NestedModel g) (hx : x ∈ (h.graph g).subGraph) (hy : y ∈ (h.graph g).subGraph)
    (hnx : n ∈ (h.graph x).nodes) (hny : n ∈ (h.graph y).nodes) : x = y := by
  by_contra hne
  have hapart := (nodup_flatMap.mp (modelNodes_nodup hm).of_append_right).2
  have hsymm : Std.Symm (Function.onFun List.Disjoint fun x => (h.graph x).nodes) := ⟨fun _ _ hd => hd.symm⟩
  exact hapart.forall hx hy hne hnx hny

/-- The walk lists no node twice. -/
theorem nodup_walk (hm : h.NestedModel g) (hp : h.NodesInOrder g out) : out.Nodup := by
  have hsub := subset_modelNodes hm.agree hp
  refine hp.nodup (modelNodes_nodup hm).of_append_left (fun n hn => ?_) (fun m hmem n hn v hvm hvn => ?_) fun n hn v hv hroot => ?_
  · have hresolved : (h.resolved g n).Nodup := (nodup_flatMap.mp (resolved_nodup hm)).1 n (hsub hn)
    have hregistered : h.resolved g n ⊆ (h.graph g).subGraph := fun x hx => registered_of_resolved hm.agree hx
    obtain ⟨honce, hapart⟩ := nodup_flatMap.mp (modelNodes_nodup hm).of_append_right
    have hsymm : Std.Symm (Function.onFun List.Disjoint fun x => (h.graph x).nodes) := ⟨fun _ _ hd => hd.symm⟩
    refine nodup_flatMap.mpr ⟨fun x hx => honce x (hregistered hx), ?_⟩
    refine List.Pairwise.imp_of_mem (fun {x y} hx hy hne => ?_) hresolved
    exact hapart.forall (hregistered hx) (hregistered hy) hne
  · obtain ⟨x, hx, hvx⟩ := mem_inner.mp hvm
    obtain ⟨y, hy, hvy⟩ := mem_inner.mp hvn
    obtain rfl := eq_of_node hm (registered_of_resolved hm.agree hx) (registered_of_resolved hm.agree hy) hvx hvy
    exact eq_of_resolved hm (hsub hmem) (hsub hn) hx hy
  · exact (nodup_append.mp (modelNodes_nodup hm)).2.2 v hroot v (inner_subset hm.agree hv) rfl

/-- Going down in nodes goes down in graphs. -/
theorem acc_inner (hx : Acc (fun y x => h.Nests g x y) x) : ∀ n ∈ (h.graph x).nodes, Acc (fun m n => m ∈ h.inner g n) n := by
  induction hx with
  | intro x _ ih =>
    intro n hn
    refine ⟨_, fun m hmem => ?_⟩
    obtain ⟨y, hy, hmy⟩ := mem_inner.mp hmem
    exact ih y ⟨n, hn, hy⟩ m hmy

/-- The walk comes to an end. -/
theorem exists_walk (hm : h.NestedModel g) : ∃ out, h.NodesInOrder g out := by
  have hgraph : ∀ x, Acc (fun y x => h.Nests g x y) x := fun x =>
    Preordered.acc_of_acyclic (h.graph g).subGraph (fun x y => fun ⟨_, _, hy⟩ => registered_of_resolved hm.agree hy) hm.acyclic x
  exact Preordered.exists_of_acc (acc_inner (hgraph g))

/-- The subgraphs met are registered, each met once. -/
theorem met_nodup (hm : h.NestedModel g) (hp : h.NodesInOrder g out) : (out.flatMap (h.resolved g)).Nodup := by
  obtain ⟨honce, hapart⟩ := nodup_flatMap.mp (resolved_nodup hm)
  have hsub := subset_modelNodes hm.agree hp
  have hsymm : Std.Symm (Function.onFun List.Disjoint (h.resolved g)) := ⟨fun _ _ hd => hd.symm⟩
  refine nodup_flatMap.mpr ⟨fun n hn => honce n (hsub hn), ?_⟩
  exact List.Pairwise.imp_of_mem (fun {m n} hmem hn hne => hapart.forall (hsub hmem) (hsub hn) hne) (nodup_walk hm hp)

end NestedAux

end Metadef
