import Metadef.Lemmas.GraphRemoval
import Metadef.Lemmas.NestedGraphs
import Metadef.Theorems.RefRelations
import Metadef.NodeSubgraphs

/-!
# Removing the subgraphs below a node

`RemoveNodeWithoutRelink` finds the subgraphs below a node by the names they are registered under and takes them off the map by
their own names. It edits the inputs and outputs of the graph before it looks whether the node is one of the graph.
-/

namespace Metadef

open List OrderedMap RefRelationsAux Cmd

open Relation Heap ComputeGraph GraphUtils RefRelations

/-- A subgraph is below a node: it is one of the node, or one of a node inside a subgraph below it. -/
def Heap.Below (h : Heap) (root : GraphId) (n : NodeId) (x : GraphId) : Prop :=
  ∃ m, ReflTransGen (fun a b => b ∈ h.inner root a) n m ∧ x ∈ h.resolved root m

/-- A node is gone from its graph, and just the subgraphs below it are from the registries of the root. -/
structure Heap.TreeRemoved (h h' : Heap) (g root : GraphId) (n : NodeId) : Prop where
  nodes : (h'.graph g).nodes = (h.graph g).nodes.filter (· ≠ n)
  list : (h'.graph root).subGraph.Sublist (h.graph root).subGraph
  mem_list : ∀ x, x ∈ (h'.graph root).subGraph ↔ x ∈ (h.graph root).subGraph ∧ ¬ h.Below root n x
  map : (h'.graph root).namesToSubgraph.Sublist (h.graph root).namesToSubgraph
  mem_map : ∀ e, e ∈ (h'.graph root).namesToSubgraph ↔ e ∈ (h.graph root).namesToSubgraph ∧ ¬ h.Below root n e.2

/-- The inputs and outputs of a graph and the registries of the root are as they were. -/
structure Heap.ListsKept (h h' : Heap) (g root : GraphId) : Prop where
  inputs : (h'.graph g).inputNodes = (h.graph g).inputNodes
  outputs : (h'.graph g).outputNodesInfo = (h.graph g).outputNodesInfo
  list : (h'.graph root).subGraph = (h.graph root).subGraph
  map : (h'.graph root).namesToSubgraph = (h.graph root).namesToSubgraph

/-- A node of a graph is removed with the subgraphs below it, and for one that is not of the graph the call fails and leaves the
lists. -/
structure Heap.RemovesTree (h : Heap) (g root : GraphId) (n : NodeId) : Prop where
  removes : n ∈ (h.graph g).nodes → ∃ h', (∃ k, ∀ fuel, k ≤ fuel →
    removeNodeWithoutRelink fuel (some g) (some n) h = some (true, h')) ∧ h.TreeRemoved h' g root n
  rejects : n ∉ (h.graph g).nodes → ∃ h', (∀ fuel, removeNodeWithoutRelink fuel (some g) (some n) h = some (false, h')) ∧
    h.ListsKept h' g root

/-- The names of the subgraphs below a node are those they are registered under. -/
def Heap.KeyedBelow (h : Heap) (root : GraphId) (n : NodeId) : Prop :=
  ∀ e ∈ (h.graph root).namesToSubgraph, h.Below root n e.2 ↔ ∃ x, h.Below root n x ∧ (h.graph x).name = e.1

/-- A graph has a node neither as an input nor by its name as an output. -/
structure Heap.Unlisted (h : Heap) (g : GraphId) (n : NodeId) : Prop where
  inputs : n ∉ (h.graph g).inputNodes
  outputs : ∀ item ∈ (h.graph g).outputNodesInfo, Node.getName h n ≠ Node.getName h item.1

namespace SubgraphTreesAux

variable {h h' t : Heap} {g root : GraphId} {n m : NodeId} {x : GraphId} {out : List NodeId} {l : List GraphId}

/-! ## Off the inputs and outputs -/

/-- The inputs and outputs of a graph without a node. -/
def unlist (h : Heap) (g : GraphId) (n : NodeId) : Heap := h.setGraph g { h.graph g with
  inputNodes := (h.graph g).inputNodes.erase n
  outputNodesInfo := (h.graph g).outputNodesInfo.filter fun item => Node.getName h n ≠ Node.getName h item.1 }

/-- What of a graph does not depend on its inputs and outputs stays. -/
theorem unlist_field {α : Type} (field : ComputeGraph → α) (hfield : ∀ (y : ComputeGraph) inputNodes outputNodesInfo,
    field { y with inputNodes, outputNodesInfo } = field y) (x : GraphId) :
    field ((unlist h g n).graph x) = field (h.graph x) := by
  rw [unlist, setGraph_graph]
  split
  · rename_i hx
    rw [hx, hfield]
  · rfl

/-- The call takes the node off the inputs and outputs and goes on. -/
theorem removeNodeWithoutRelink_eq (h : Heap) (g : GraphId) (n : NodeId) (fuel : Nat) :
    removeNodeWithoutRelink fuel (some g) (some n) h = (do
      if !(← removeSubgraphRecursively fuel (some g) (some n)) then return false
      let h ← get
      if n ∉ (h.graph g).nodes then return false
      edit g fun g => g.eraseFromNodeList n
      return true : Cmd Heap Bool) (unlist h g n) := by
  obtain ⟨ok, hin⟩ := TakingAux.removeInputNode_returns g n h
  obtain ⟨ok', hout⟩ := TakingAux.removeOutputNode_returns g n
    (h.setGraph g { h.graph g with inputNodes := (h.graph g).inputNodes.erase n })
  have heq : (h.setGraph g { h.graph g with inputNodes := (h.graph g).inputNodes.erase n }).setGraph g
      { (h.setGraph g { h.graph g with inputNodes := (h.graph g).inputNodes.erase n }).graph g with
        outputNodesInfo := ((h.setGraph g { h.graph g with inputNodes := (h.graph g).inputNodes.erase n }).graph g)
          |>.outputNodesInfo.filter fun item => Node.getName h n ≠ Node.getName h item.1 } = unlist h g n := by
    simp [unlist, setGraph]
  rw [removeNodeWithoutRelink, bind_of_eq hin, bind_of_eq hout, ← heq]
  rfl

/-! ## The subgraphs found -/

theorem findRootGraph_congr (hparent : ∀ x, (h'.graph x).parentGraph = (h.graph x).parentGraph) (fuel : Nat) :
    ∀ g, findRootGraph h' fuel g = findRootGraph h fuel g := by
  induction fuel with
  | zero => exact fun _ => rfl
  | succ fuel ih =>
    intro g
    simp only [findRootGraph, hparent, ih]

theorem resolved_unlist : (unlist h g n).resolved root m = h.resolved root m := by
  unfold Heap.resolved
  rw [unlist_field (fun y => y.namesToSubgraph) fun _ _ _ => rfl]
  rfl

theorem inner_unlist : (unlist h g n).inner root = h.inner root := by
  funext m
  unfold Heap.inner
  rw [resolved_unlist]
  exact flatMap_congr fun x _ => unlist_field (fun y => y.nodes) (fun _ _ _ => rfl) x

/-- What the walk from a node collects is below the node. -/
theorem mem_below (hp : Preordered (h.inner root) [n] out) :
    (x ∈ out.flatMap fun m => (h.resolved root m).reverse) ↔ h.Below root n x := by
  simp only [mem_flatMap, mem_reverse, hp.mem_iff, mem_singleton, exists_eq_left, Heap.Below]

/-- In a graph whose subgraphs nest without a cycle the walk from a node comes to an end. -/
theorem exists_preorder (hacyclic : ∀ x, ¬ TransGen (h.Nests root) x x) (hn : n ∈ (h.graph g).nodes) :
    ∃ out, Preordered (h.inner root) [n] out := by
  have hgraph : Acc (fun y x => h.Nests root x y) g := by
    refine Preordered.acc_of_acyclic ((h.graph root).namesToSubgraph.map Prod.snd) (fun x y => ?_) hacyclic g
    rintro ⟨m, -, hy⟩
    obtain ⟨name, -, hfind⟩ := mem_filterMap.mp hy
    exact List.mem_map.mpr ⟨_, mem_of_find hfind, rfl⟩
  refine Preordered.exists_of_acc fun m hm => ?_
  obtain rfl := mem_singleton.mp hm
  exact NestedAux.acc_inner hgraph m hn

/-- The subgraphs the call finds in the root are those below the node. -/
theorem walk_found (hroot : (h.graph root).parentGraph = none) (hp : Preordered (h.inner root) [n] out) {fuel : Nat}
    (hfuel : out.length < fuel) : walkNodes (unlist h g n) root fuel { candidates := [n] } =
      some { subgraphs := out.flatMap fun m => (h.resolved root m).reverse, allNodes := out, candidates := [] } := by
  have hroot' : ((unlist h g n).graph root).parentGraph = none := by
    rw [unlist_field (fun y => y.parentGraph) fun _ _ _ => rfl]
    exact hroot
  rw [NodeWalks.walkNodes_eq hroot', inner_unlist, hp.walk_eq hfuel]
  simp [resolved_unlist]

/-! ## Off the registries -/

/-- The registries of the root without graphs: the list without each of them, the map without their names. -/
structure Unregistered (root : GraphId) (l : List GraphId) (h h' : Heap) : Prop where
  list : (h'.graph root).subGraph = (h.graph root).subGraph.diff l
  map : (h'.graph root).namesToSubgraph = (h.graph root).namesToSubgraph.filter fun e => ∀ x ∈ l, e.1 ≠ (h.graph x).name
  nodes : ∀ x, (h'.graph x).nodes = (h.graph x).nodes
  names : ∀ x, (h'.graph x).name = (h.graph x).name

/-- Removing subgraphs one after the other succeeds. -/
theorem removeSubGraph_each (root : GraphId) (l : List GraphId) : ∀ h : Heap,
    ∃ h', Cmd.eachOk (fun x => removeSubGraph root (some x)) l h = some (true, h') ∧ Unregistered root l h h' := by
  induction l with
  | nil => exact fun h => ⟨h, rfl, by simp, by simp, fun _ => rfl, fun _ => rfl⟩
  | cons y l ih =>
    intro h
    let t := h.setGraph root { h.graph root with
      namesToSubgraph := (h.graph root).namesToSubgraph.erase (h.graph y).name
      subGraph := (h.graph root).subGraph.erase y }
    have hfields : ∀ x, (t.graph x).nodes = (h.graph x).nodes ∧ (t.graph x).name = (h.graph x).name := by
      intro x
      simp only [t, setGraph_graph]
      split <;> simp_all
    have hstep : removeSubGraph root (some y) h = some (true, t) := by
      simp [removeSubGraph, edit, t, setGraph]
    obtain ⟨h', hr, hu⟩ := ih t
    refine ⟨h', by rw [Cmd.eachOk, bind_of_eq hstep]; exact hr, ?_, ?_, fun x => ?_, fun x => ?_⟩
    · rw [hu.list, diff_cons]
      simp [t]
    · rw [hu.map]
      simp only [fun x => (hfields x).2]
      simp only [t, setGraph_graph, if_true, OrderedMap.erase, filter_filter]
      refine filter_congr fun e _ => ?_
      simp [Bool.and_comm]
    · rw [hu.nodes, (hfields x).1]
    · rw [hu.names, (hfields x).2]

/-! ## The call -/

/-- The heap after the subgraphs are off the registries, without the node in its graph. -/
def unlistNode (t : Heap) (g : GraphId) (n : NodeId) : Heap := t.setGraph g ((t.graph g).eraseFromNodeList n)

theorem mem_nodes_unlist : n ∈ ((unlist h g m).graph g).nodes ↔ n ∈ (h.graph g).nodes := by
  rw [unlist_field (fun y => y.nodes) fun _ _ _ => rfl]

/-- For a node of the graph the call takes off what it finds below the node, and then the node. -/
theorem removed_spec (hg : ∃ k, findRootGraph h k g = some root) (hacyclic : ∀ x, ¬ TransGen (h.Nests root) x x)
    (hn : n ∈ (h.graph g).nodes) : ∃ out t, Preordered (h.inner root) [n] out ∧
      Unregistered root (out.flatMap fun m => (h.resolved root m).reverse) (unlist h g n) t ∧
      ∃ k, ∀ fuel, k ≤ fuel → removeNodeWithoutRelink fuel (some g) (some n) h = some (true, unlistNode t g n) := by
  obtain ⟨out, hp⟩ := exists_preorder hacyclic hn
  obtain ⟨k, hk⟩ := hg
  obtain ⟨t, ht, hu⟩ := removeSubGraph_each root (out.flatMap fun m => (h.resolved root m).reverse) (unlist h g n)
  refine ⟨out, t, hp, hu, k + out.length + 1, fun fuel hfuel => ?_⟩
  have hfind : findRootGraph (unlist h g n) fuel g = some root := by
    obtain ⟨d, rfl⟩ := Nat.exists_eq_add_of_le (show k ≤ fuel by omega)
    rw [findRootGraph_congr fun x => unlist_field (fun y => y.parentGraph) (fun _ _ _ => rfl) x]
    exact findRootGraph_mono hk d
  have hwalk := walk_found (g := g) (getSubgraph_of_root hk "").1 hp (show out.length < fuel by omega)
  have hrec : removeSubgraphRecursively fuel (some g) (some n) (unlist h g n) = some (true, t) := by
    simp only [removeSubgraphRecursively, get_bind_apply]
    rw [if_neg (not_not.mpr (mem_nodes_unlist.mpr hn))]
    simp only [hfind, hwalk]
    exact ht
  have hnt : n ∈ (t.graph g).nodes := hu.nodes g ▸ mem_nodes_unlist.mpr hn
  rw [removeNodeWithoutRelink_eq, bind_of_eq hrec]
  simp [hnt, edit, unlistNode]

/-- For a node that is not of the graph the call fails with the inputs and outputs edited. -/
theorem rejected_spec (hn : n ∉ (h.graph g).nodes) (fuel : Nat) :
    removeNodeWithoutRelink fuel (some g) (some n) h = some (false, unlist h g n) := by
  have hrec : removeSubgraphRecursively fuel (some g) (some n) (unlist h g n) = some (false, unlist h g n) := by
    simp only [removeSubgraphRecursively, get_bind_apply]
    rw [if_pos (mt mem_nodes_unlist.mp hn)]
    rfl
  rw [removeNodeWithoutRelink_eq, bind_of_eq hrec]
  rfl

/-- Taking a node off at its first place takes it off for good when it is listed once. -/
theorem erase_eq_filter_iff {l : List NodeId} (hn : n ∈ l) : l.erase n = l.filter (· ≠ n) ↔ l.count n = 1 := by
  have hpos := count_pos_iff.mpr hn
  constructor
  · intro heq
    have hnone : (l.filter (· ≠ n)).count n = 0 := count_eq_zero.mpr fun hmem => by simpa using of_mem_filter hmem
    have hcount := congrArg (List.count n) heq
    rw [count_erase_self, hnone] at hcount
    omega
  · intro hone
    obtain ⟨pre, post, rfl⟩ := append_of_mem hn
    rw [count_append, count_cons_self] at hone
    have hpre : n ∉ pre := count_eq_zero.mp (by omega)
    have hpost : n ∉ post := count_eq_zero.mp (by omega)
    rw [erase_append_right _ hpre, erase_cons_head, filter_append, filter_cons_of_neg (by simp)]
    have hkept : ∀ l : List NodeId, n ∉ l → l.filter (· ≠ n) = l := fun l hl =>
      filter_eq_self.mpr fun m hm => decide_eq_true fun hmn => hl (hmn ▸ hm)
    rw [hkept pre hpre, hkept post hpost]

/-- What the call leaves is what it should when the node is listed once and the names taken off belong to what is below it. -/
theorem treeRemoved_iff (hlist : (h.graph root).subGraph.Nodup) (hn : n ∈ (h.graph g).nodes)
    (hp : Preordered (h.inner root) [n] out)
    (hu : Unregistered root (out.flatMap fun m => (h.resolved root m).reverse) (unlist h g n) t) :
    h.TreeRemoved (unlistNode t g n) g root n ↔ (h.graph g).nodes.count n = 1 ∧ h.KeyedBelow root n := by
  have hfield : ∀ {α : Type} (field : ComputeGraph → α), (∀ (y : ComputeGraph) nodes directNodesSize,
      field { y with nodes, directNodesSize } = field y) → field ((unlistNode t g n).graph root) = field (t.graph root) := by
    intro α field hf
    rw [unlistNode, setGraph_graph]
    split
    · rename_i hg
      rw [hg, eraseFromNodeList]
      split
      · exact hf _ _ _
      · rfl
    · rfl
  have hnt : (t.graph g).nodes = (h.graph g).nodes := by
    rw [hu.nodes, unlist_field (fun y => y.nodes) fun _ _ _ => rfl]
  have hnodes : ((unlistNode t g n).graph g).nodes = (h.graph g).nodes.erase n := by
    rw [unlistNode, setGraph_graph, if_pos rfl, eraseFromNodeList, if_pos (hnt ▸ hn), hnt]
  have hmaplist : ((unlistNode t g n).graph root).subGraph =
      (h.graph root).subGraph.diff (out.flatMap fun m => (h.resolved root m).reverse) := by
    rw [hfield (fun y => y.subGraph) fun _ _ _ => rfl, hu.list, unlist_field (fun y => y.subGraph) fun _ _ _ => rfl]
  have hmap : ((unlistNode t g n).graph root).namesToSubgraph = (h.graph root).namesToSubgraph.filter
      fun e => ∀ x ∈ out.flatMap fun m => (h.resolved root m).reverse, e.1 ≠ (h.graph x).name := by
    rw [hfield (fun y => y.namesToSubgraph) fun _ _ _ => rfl, hu.map, unlist_field (fun y => y.namesToSubgraph) fun _ _ _ => rfl]
    refine filter_congr fun e _ => ?_
    simp only [unlist_field (fun y => y.name) fun _ _ _ => rfl]
  have hmem : ∀ e, e ∈ ((unlistNode t g n).graph root).namesToSubgraph ↔
      e ∈ (h.graph root).namesToSubgraph ∧ ¬ ∃ x, h.Below root n x ∧ (h.graph x).name = e.1 := by
    intro e
    rw [hmap, mem_filter, decide_eq_true_eq]
    refine and_congr_right fun _ => ?_
    push Not
    exact forall_congr' fun x => by rw [mem_below hp, ne_comm]
  constructor
  · intro hr
    refine ⟨(erase_eq_filter_iff hn).mp (hnodes.symm.trans hr.nodes), fun e he => ?_⟩
    have hiff := (hr.mem_map e).symm.trans (hmem e)
    simp only [he, true_and] at hiff
    exact not_iff_not.mp hiff
  · rintro ⟨hone, hkeyed⟩
    refine ⟨hnodes.trans ((erase_eq_filter_iff hn).mpr hone), hmaplist ▸ diff_sublist _ _, fun x => ?_,
      hmap ▸ filter_sublist, fun e => ?_⟩
    · rw [hmaplist, hlist.mem_sdiff_iff, mem_below hp]
    · rw [hmem]
      exact and_congr_right fun he => not_congr (hkeyed e he).symm

/-- The edits of a call that fails change nothing when the node is not listed. -/
theorem listsKept_iff (h : Heap) (g root : GraphId) (n : NodeId) : h.ListsKept (unlist h g n) g root ↔ h.Unlisted g n := by
  have hinputs : ((unlist h g n).graph g).inputNodes = (h.graph g).inputNodes.erase n := by
    rw [unlist, setGraph_graph, if_pos rfl]
  have houtputs : ((unlist h g n).graph g).outputNodesInfo =
      (h.graph g).outputNodesInfo.filter fun item => Node.getName h n ≠ Node.getName h item.1 := by
    rw [unlist, setGraph_graph, if_pos rfl]
  constructor
  · intro hk
    refine ⟨?_, fun item hitem => ?_⟩
    · exact fun hn => absurd (congrArg List.length (hinputs.symm.trans hk.inputs)) (by
        have hlen := length_erase_of_mem hn
        have hpos := length_pos_of_mem hn
        omega)
    · have hall := filter_eq_self.mp (houtputs.symm.trans hk.outputs) item hitem
      exact of_decide_eq_true hall
  · rintro ⟨hin, hout⟩
    refine ⟨hinputs.trans (erase_of_not_mem hin), houtputs.trans ?_, ?_, ?_⟩
    · exact filter_eq_self.mpr fun item hitem => decide_eq_true (hout item hitem)
    · exact unlist_field (fun y => y.subGraph) (fun _ _ _ => rfl) root
    · exact unlist_field (fun y => y.namesToSubgraph) (fun _ _ _ => rfl) root

theorem condition_of_removesTree (hg : ∃ k, findRootGraph h k g = some root) (hlist : (h.graph root).subGraph.Nodup)
    (hacyclic : ∀ x, ¬ TransGen (h.Nests root) x x) (hr : h.RemovesTree g root n) :
    (n ∈ (h.graph g).nodes → (h.graph g).nodes.count n = 1 ∧ h.KeyedBelow root n) ∧
      (n ∉ (h.graph g).nodes → h.Unlisted g n) := by
  refine ⟨fun hn => ?_, fun hn => ?_⟩
  · obtain ⟨out, t, hp, hu, k, hrun⟩ := removed_spec hg hacyclic hn
    obtain ⟨h', ⟨k', hrun'⟩, hremoved⟩ := hr.removes hn
    have heq := (hrun (k + k') (by omega)).symm.trans (hrun' (k + k') (by omega))
    obtain rfl := (Prod.mk.inj (Option.some.inj heq)).2
    exact (treeRemoved_iff hlist hn hp hu).mp hremoved
  · obtain ⟨h', hrun, hkept⟩ := hr.rejects hn
    obtain rfl := (Prod.mk.inj (Option.some.inj ((rejected_spec hn 0).symm.trans (hrun 0)))).2
    exact (listsKept_iff h g root n).mp hkept

end SubgraphTreesAux

open SubgraphTreesAux

/-- In a root graph whose graphs have distinct names and nest without a cycle, a node is removed with the subgraphs below it, and
the call rejected without a trace, if and only if the node of the graph is listed once and the names of the subgraphs below it
are those they are registered under, and a node that is not of the graph is neither an input nor named by an output. -/
theorem removesTree_iff (h : Heap) (g root : GraphId) (n : NodeId) (hg : ∃ k, findRootGraph h k g = some root)
    (hnames : ((root :: (h.graph root).subGraph).map fun x => (h.graph x).name).Nodup)
    (hacyclic : ∀ x, ¬ TransGen (h.Nests root) x x) :
    h.RemovesTree g root n ↔ (n ∈ (h.graph g).nodes → (h.graph g).nodes.count n = 1 ∧ h.KeyedBelow root n) ∧
      (n ∉ (h.graph g).nodes → h.Unlisted g n) := by
  have hlist : (h.graph root).subGraph.Nodup := (nodup_cons.mp hnames).2.of_map
  refine ⟨condition_of_removesTree hg hlist hacyclic, fun ⟨hone, hunlisted⟩ => ⟨fun hn => ?_, fun hn => ?_⟩⟩
  · obtain ⟨out, t, hp, hu, hrun⟩ := removed_spec hg hacyclic hn
    exact ⟨_, hrun, (treeRemoved_iff hlist hn hp hu).mpr (hone hn)⟩
  · exact ⟨_, rejected_spec hn, (listsKept_iff h g root n).mpr (hunlisted hn)⟩

namespace SubgraphTreesWitness

/-- Two nodes of one name, with a subgraph of a name. The first is in the root graph and its output; graph 1 is its subgraph,
registered under that name. -/
def rooted (key : String) : Heap :=
  let op : OpDesc := { opDef := { name := "n" }, subgraphInstanceNames := [key] }
  let h := GraphSteps.addAll 0 ((LinkCall.runAll [.newOp op, .newNode 0, .newOp op, .newNode 1]).getD .empty) [0]
  let h := h.setGraph 0 { h.graph 0 with
    name := "root", outputNodesInfo := [(0, 0)], subGraph := [1], namesToSubgraph := [(key, 1)] }
  let h := h.setNode 0 { h.node 0 with ownerGraph := some 0 }
  h.setGraph 1 { h.graph 1 with name := "sub", parentGraph := some 0, parentNode := some 0 }

theorem nodes_rooted (key : String) (x : GraphId) (hx : ((rooted key).graph x).nodes ≠ []) : x = 0 := by
  by_contra hne
  apply hx
  simp only [rooted, setGraph_graph, setNode_graph, hne, if_false, GraphSteps.addAll_graph hne]
  split
  · rfl
  · rfl

theorem acyclic_rooted (key : String) : ∀ x, ¬ TransGen ((rooted key).Nests 0) x x := by
  have hmap : ((rooted key).graph 0).namesToSubgraph = [(key, 1)] := rfl
  have hstep : ∀ x y, (rooted key).Nests 0 x y → x = 0 ∧ y = 1 := by
    rintro x y ⟨n, hn, hy⟩
    obtain ⟨name, -, hfind⟩ := mem_filterMap.mp hy
    have hmem := mem_of_find hfind
    rw [hmap, mem_singleton] at hmem
    exact ⟨nodes_rooted key x (ne_nil_of_mem hn), (Prod.mk.inj hmem).2⟩
  intro x hcycle
  obtain ⟨y, hy, -⟩ := TransGen.head'_iff.mp hcycle
  obtain ⟨z, -, hz⟩ := TransGen.tail'_iff.mp hcycle
  exact absurd ((hstep _ _ hy).1.symm.trans (hstep _ _ hz).2) (by decide)

/-- Graph 1 is below the first node. -/
theorem below_rooted {key : String} (hr : 1 ∈ (rooted key).resolved 0 0) : (rooted key).Below 0 0 1 := ⟨0, .refl, hr⟩

theorem removesTree_rooted : (rooted "sub").RemovesTree 0 0 0 := by
  have hbelow : (rooted "sub").Below 0 0 1 := below_rooted (by decide +kernel)
  refine (removesTree_iff (rooted "sub") 0 0 0 ⟨1, rfl⟩ (by decide +kernel) (acyclic_rooted "sub")).mpr
    ⟨fun _ => ⟨by decide +kernel, fun e he => ?_⟩, fun hn => absurd (by decide +kernel) hn⟩
  obtain rfl : e = ("sub", 1) := mem_singleton.mp he
  exact iff_of_true hbelow ⟨1, hbelow, by decide +kernel⟩

/-- A subgraph registered under another name than its own stays in the map. And a node that is not of the graph takes an output of
its name off before the call fails. -/
theorem removesTree_false :
    (¬ ∀ (h : Heap) (g root : GraphId) (n : NodeId), (∃ k, findRootGraph h k g = some root) →
      ((root :: (h.graph root).subGraph).map fun x => (h.graph x).name).Nodup → (∀ x, ¬ TransGen (h.Nests root) x x) →
        h.RemovesTree g root n) ∧
    ¬ (rooted "key").RemovesTree 0 0 0 ∧ ¬ (rooted "sub").RemovesTree 0 0 1 := by
  have hkeyed : ¬ (rooted "key").RemovesTree 0 0 0 := by
    intro hr
    obtain ⟨hremoved, -⟩ := condition_of_removesTree ⟨1, rfl⟩ (by decide +kernel) (acyclic_rooted "key") hr
    obtain ⟨-, hkeyed⟩ := hremoved (by decide +kernel)
    obtain ⟨x, ⟨m, -, hx⟩, hname⟩ := (hkeyed ("key", 1) (by decide +kernel)).mp (below_rooted (by decide +kernel))
    obtain ⟨name, -, hfind⟩ := mem_filterMap.mp hx
    obtain rfl : x = 1 := (Prod.mk.inj (mem_singleton.mp (mem_of_find hfind))).2
    exact absurd hname (by decide +kernel)
  have hnamed : ¬ (rooted "sub").RemovesTree 0 0 1 := by
    intro hr
    obtain ⟨-, hrejected⟩ := condition_of_removesTree ⟨1, rfl⟩ (by decide +kernel) (acyclic_rooted "sub") hr
    exact (hrejected (by decide +kernel)).outputs (0, 0) (by decide +kernel) (by decide +kernel)
  exact ⟨fun hall => hkeyed (hall _ 0 0 0 ⟨1, rfl⟩ (by decide +kernel) (acyclic_rooted "key")), hkeyed, hnamed⟩

end SubgraphTreesWitness

end Metadef
