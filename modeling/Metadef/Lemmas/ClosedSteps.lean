import Metadef.Lemmas.ClosedIsolate
import Metadef.Lemmas.SortOrder

/-!
# One graph call keeps a graph closed

What a graph keeps over a run: its counter is the number of its nodes, its inputs and outputs are among them, and links
between different nodes join nodes of the graph. The calls that add, order and link nodes keep it; those that remove nodes
keep it when what goes leaves no link, no input and no output behind.
-/

namespace Metadef

open List SortOrder Bool

open Cmd Heap LinkAux CallAux AnchorAux IsolateAux ComputeGraph

namespace ClosedAux

variable {h h' : Heap} {N : List NodeId} {n : NodeId} {c : Prop} {g : GraphId}

/-- What every call keeps. -/
structure Kept (h : Heap) (g : GraphId) : Prop where
  inside : Inside h (h.graph g).nodes
  size : (h.graph g).directNodesSize = (h.graph g).nodes.length
  inputs : ∀ x ∈ (h.graph g).inputNodes, x ∈ (h.graph g).nodes
  outputs : ∀ p ∈ (h.graph g).outputNodesInfo, p.1 ∈ (h.graph g).nodes

/-! ## Heaps with the links of another -/

/-- A heap with the anchors of another has its links inside. -/
theorem Inside.of_anchors (hi : Inside h N) (hn : h'.nodeCount = h.nodeCount) (hc : h'.anchorCount = h.anchorCount)
    (hl : h'.anchorsOf = h.anchorsOf) (ha : h'.anchor = h.anchor) : Inside h' N := by
  have hpeers : h'.peers = h.peers := by
    funext a
    unfold Heap.peers
    rw [ha]
  refine ⟨hi.sound.of_anchors hn hc hl ha, fun a b hb => ?_, fun m hm => hn ▸ hi.made m hm, fun a b hb => ?_⟩
  · unfold Heap.kind
    rw [ha]
    exact hi.directed a b (hpeers ▸ hb)
  · unfold Heap.owner
    rw [ha]
    exact hi.links a b (hpeers ▸ hb)

theorem Inside.setGraph (hi : Inside h N) (x : ComputeGraph) : Inside (h.setGraph g x) N :=
  hi.of_anchors rfl rfl rfl rfl

theorem Inside.setOp (hi : Inside h N) (o : OpId) (x : OpDesc) : Inside (h.setOp o x) N :=
  hi.of_anchors rfl rfl rfl rfl

/-- Marking a node as one of a host leaves its anchors. -/
theorem Inside.setHost (hi : Inside h N) (n : NodeId) (b : Bool) : Inside (h.setNode n { h.node n with hostNode := b }) N := by
  refine hi.of_anchors rfl rfl ?_ rfl
  funext m k
  cases k <;> simp only [anchorsOf, setNode_node] <;> split <;> simp_all

theorem Inside.setIds (l : List NodeId) : ∀ (i : Nat) {h : Heap}, Inside h N → Inside (ComputeGraph.setIds l i h) N := by
  induction l with
  | nil => exact fun _ _ hi => hi
  | cons m l ih => exact fun i h hi => ih (i + 1) (hi.setOp _ _)

/-- New anchors and nodes leave the links inside. -/
theorem Inside.of_extended (hi : Inside h N) (hs : h'.Sound) (hpeers : h'.peers = h.peers)
    (hanchor : ∀ a < h.anchorCount, h'.anchor a = h.anchor a) (hcount : h.nodeCount ≤ h'.nodeCount) : Inside h' N := by
  have hmade : ∀ a, ∀ b ∈ h.peers a, a < h.anchorCount ∧ b < h.anchorCount := by
    intro a b hb
    have ha := hi.sound.symm.held hi.sound.peersHeld hb
    have hb' := hi.sound.peersHeld a b hb
    exact ⟨hi.sound.laid.made _ ha.1 _ a ha.2, hi.sound.laid.made _ hb'.1 _ b hb'.2⟩
  refine ⟨hs, fun a b hb => ?_, fun m hm => Nat.lt_of_lt_of_le (hi.made m hm) hcount, fun a b hb => ?_⟩
  · rw [hpeers] at hb
    obtain ⟨ha, hb'⟩ := hmade a b hb
    unfold Heap.kind
    rw [hanchor a ha, hanchor b hb']
    exact hi.directed a b hb
  · rw [hpeers] at hb
    obtain ⟨ha, hb'⟩ := hmade a b hb
    unfold Heap.owner
    rw [hanchor a ha, hanchor b hb']
    exact hi.links a b hb

/-- Making a node leaves the links inside and all graphs. -/
theorem make_spec (hi : Inside h N) {op : OpId} {o : Option GraphId} (hr : Node.make op o h = some (n, h')) :
    Inside h' N ∧ h'.graph = h.graph ∧ n < h'.nodeCount := by
  have hkeeps := keeps_make (P := fun t => (Inside t N ∧ t.graph = h.graph) ∧ h.nodeCount ≤ t.nodeCount) ?_ ?_ op o h n h'
    ⟨⟨hi, rfl⟩, Nat.le_refl _⟩ hr
  · refine ⟨hkeeps.1.1, hkeeps.1.2, ?_⟩
    simp only [Node.make, get_bind_apply, set_bind_apply, pure_apply, Option.some.injEq, Prod.mk.injEq] at hr
    obtain ⟨rfl, rfl⟩ := hr
    rw [appendAnchors_nodeCount, appendAnchors_nodeCount]
    exact Nat.lt_succ_self _
  · rintro t op o ⟨⟨ht, hg⟩, hle⟩
    have hlt : t.nodeCount ≤ (Node.bare op o t).nodeCount := Nat.le_succ _
    exact ⟨⟨ht.of_extended (sound_bare ht.sound op o) (bare_peers ht.sound op o) (fun a ha => bare_anchor op o ha) hlt, hg⟩,
      hle.trans hlt⟩
  · rintro t m k hk ⟨⟨ht, hg⟩, hle⟩ hm
    have hgraph : (Node.appendAnchor m k t).graph = t.graph := by
      unfold Node.appendAnchor Heap.setAnchorsOf
      cases k <;> rfl
    refine ⟨⟨ht.of_extended (sound_appendAnchor ht.sound hk hm) (appendAnchor_peers ht.sound) (fun a ha => ?_) ?_,
      hgraph.trans hg⟩, ?_⟩
    · rw [appendAnchor_anchor, if_neg (Nat.ne_of_lt ha)]
    · rw [appendAnchor_nodeCount]
    · rwa [appendAnchor_nodeCount]

/-! ## Adding nodes -/

/-- A heap in which a graph lists one more node, with the inputs and outputs it had or the node. -/
structure Lists (h : Heap) (g : GraphId) (n : NodeId) (h' : Heap) : Prop where
  inside : Inside h' (h.graph g).nodes
  made : n < h'.nodeCount
  nodes : (h'.graph g).nodes.Perm (n :: (h.graph g).nodes)
  size : (h'.graph g).directNodesSize = (h.graph g).directNodesSize + 1
  inputs : ∀ x ∈ (h'.graph g).inputNodes, x = n ∨ x ∈ (h.graph g).inputNodes
  outputs : ∀ p ∈ (h'.graph g).outputNodesInfo, p.1 = n ∨ p ∈ (h.graph g).outputNodesInfo

theorem Lists.kept (hl : Lists h g n h') (hk : Kept h g) : Kept h' g := by
  have hold : ∀ x ∈ (h.graph g).nodes, x ∈ (h'.graph g).nodes := fun x hx =>
    hl.nodes.mem_iff.mpr (mem_cons_of_mem n hx)
  have hnew : n ∈ (h'.graph g).nodes := hl.nodes.mem_iff.mpr mem_cons_self
  refine ⟨hl.inside.mono hold fun x hx => ?_, ?_, fun x hx => ?_, fun p hp => ?_⟩
  · rcases mem_cons.mp (hl.nodes.mem_iff.mp hx) with rfl | hx
    · exact hl.made
    · exact hl.inside.made x hx
  · rw [hl.size, hk.size, hl.nodes.length_eq, length_cons]
  · rcases hl.inputs x hx with rfl | hx
    · exact hnew
    · exact hold x (hk.inputs x hx)
  · rcases hl.outputs p hp with hp | hp
    · exact hp ▸ hnew
    · exact hold p.1 (hk.outputs p hp)

/-- Inserting a node into the list of a graph. -/
theorem lists_insert (hi : Inside h' (h.graph g).nodes) (hn : n < h'.nodeCount) {position : Nat}
    (hp : position ≤ (h.graph g).nodes.length) (hg : h'.graph g = (h.graph g).insertToNodeList position n) :
    Lists h g n h' := by
  refine ⟨hi, hn, ?_, ?_, fun x hx => ?_, fun p hp => ?_⟩
  · rw [hg]
    exact perm_insertIdx n _ hp
  · rw [hg]
    rfl
  · rw [hg] at hx
    exact .inr hx
  · rw [hg] at hp
    exact .inr hp

theorem pushBack_eq_insert (x : ComputeGraph) (n : NodeId) : x.pushBackToNodeList n = x.insertToNodeList x.nodes.length n := by
  unfold pushBackToNodeList insertToNodeList
  rw [insertIdx_length_self]

variable {r node : Option NodeId} {op : Option OpId} {t : Heap} {u : Unit} {ok : Bool}
  {call : LinkCall}

theorem addNode_lists (hi : Inside h (h.graph g).nodes) (hn : n < h.nodeCount)
    (hr : addNode g (some n) h = some (r, h')) : Lists h g n h' := by
  simp only [addNode, modify_bind_apply, pure_apply, Option.some.injEq, Prod.mk.injEq] at hr
  obtain ⟨-, rfl⟩ := hr
  refine lists_insert (((hi.setHost n _).setOp _ _).setGraph _) hn (Nat.le_refl _) ?_
  rw [setGraph_graph, if_pos rfl]
  exact pushBack_eq_insert (h.graph g) n

/-- What leaves a graph and the links inside keeps it. -/
theorem Kept.of_graph (hk : Kept h g) (hi : Inside h' (h.graph g).nodes) (hg : h'.graph g = h.graph g) : Kept h' g := by
  refine ⟨hg ▸ hi, ?_, fun x hx => ?_, fun p hp => ?_⟩
  · rw [hg]
    exact hk.size
  · rw [hg] at hx ⊢
    exact hk.inputs x hx
  · rw [hg] at hp ⊢
    exact hk.outputs p hp

theorem kept_addNode (hk : Kept h g) (hn : ∀ n ∈ node, n < h.nodeCount) (hr : addNode g node h = some (r, h')) : Kept h' g := by
  cases node with
  | none =>
    obtain ⟨-, rfl⟩ := of_return hr
    exact hk
  | some n => exact (addNode_lists hk.inside (hn n rfl) hr).kept hk

theorem addNodeFront_lists (hi : Inside h (h.graph g).nodes) (hn : n < h.nodeCount)
    (hr : addNodeFront g (some n) h = some (r, h')) : Lists h g n h' := by
  simp only [addNodeFront, edit, modify_bind_apply, get_bind_apply, pure_apply, Option.some.injEq, Prod.mk.injEq] at hr
  obtain ⟨-, rfl⟩ := hr
  refine lists_insert (((hi.setHost n _).setOp _ _).setGraph _) hn ?_ (by rw [setGraph_graph, if_pos rfl]; rfl)
  split
  · rename_i hfirst
    simp only [and_eq_true, setOp_graph, setNode_graph] at hfirst
    cases hl : (h.graph g).nodes with
    | nil => simp [hl] at hfirst
    | cons m l => simp
  · exact Nat.zero_le _

theorem kept_addNodeFront (hk : Kept h g) (hn : ∀ n ∈ node, n < h.nodeCount)
    (hr : addNodeFront g node h = some (r, h')) : Kept h' g := by
  cases node with
  | none =>
    obtain ⟨-, rfl⟩ := of_return hr
    exact hk
  | some n => exact (addNodeFront_lists hk.inside (hn n rfl) hr).kept hk

/-- Adding a new node over a descriptor, by a function that keeps graphs closed. -/
theorem kept_made (add : NodeId → Cmd Heap (Option NodeId)) (hk : Kept h g) {op : OpId} {x : OpDesc}
    (hadd : ∀ n t t' r, Kept t g → n < t.nodeCount → add n t = some (r, t') → Kept t' g)
    (hr : (Node.make op (some g) >>= add) (h.setOp op x) = some (r, h')) : Kept h' g := by
  obtain ⟨n, t, ht, hrest⟩ := bind_eq_some.mp hr
  obtain ⟨hi, hg, hn⟩ := make_spec (hk.inside.setOp op x) ht
  exact hadd n t h' r (hk.of_graph hi (congrFun hg g)) hn hrest

theorem kept_addOpNode (hk : Kept h g) (hr : addOpNode g op h = some (r, h')) : Kept h' g := by
  cases op with
  | none =>
    obtain ⟨-, rfl⟩ := of_return hr
    exact hk
  | some op =>
    rw [addOpNode, modify_bind_apply] at hr
    exact kept_made (fun n => addNode g (some n)) hk
      (fun n t t' r ht hn hadd => kept_addNode ht (by simpa using hn) hadd) hr

theorem kept_addOpNodeFront (hk : Kept h g) (hr : addOpNodeFront g op h = some (r, h')) : Kept h' g := by
  cases op with
  | none =>
    obtain ⟨-, rfl⟩ := of_return hr
    exact hk
  | some op =>
    rw [addOpNodeFront, modify_bind_apply] at hr
    exact kept_made (fun n => addNodeFront g (some n)) hk
      (fun n t t' r ht hn hadd => kept_addNodeFront ht (by simpa using hn) hadd) hr

theorem kept_addOpNodeWithId (hk : Kept h g) {id : Int} (hr : addOpNodeWithId g op id h = some (r, h')) : Kept h' g := by
  cases op with
  | none =>
    obtain ⟨-, rfl⟩ := of_return hr
    exact hk
  | some op =>
    rw [addOpNodeWithId, modify_bind_apply] at hr
    refine kept_made _ hk (fun n t t' r ht hn hadd => ?_) hr
    simp only [edit, modify_bind_apply, pure_apply, Option.some.injEq, Prod.mk.injEq] at hadd
    obtain ⟨-, hadd⟩ := hadd
    have hl : Lists t g n t' := by
      rw [← hadd]
      refine lists_insert ((ht.inside.setHost n _).setGraph _) hn (Nat.le_refl _) ?_
      rw [setGraph_graph, if_pos rfl]
      exact pushBack_eq_insert (t.graph g) n
    exact hl.kept ht

/-- A heap whose graph has an input or an output of a node more. -/
structure Enters (h : Heap) (g : GraphId) (n : NodeId) (h' : Heap) : Prop where
  inside : Inside h' (h.graph g).nodes
  count : h'.nodeCount = h.nodeCount
  nodes : (h'.graph g).nodes = (h.graph g).nodes
  size : (h'.graph g).directNodesSize = (h.graph g).directNodesSize
  inputs : ∀ x ∈ (h'.graph g).inputNodes, x = n ∨ x ∈ (h.graph g).inputNodes
  outputs : ∀ p ∈ (h'.graph g).outputNodesInfo, p.1 = n ∨ p ∈ (h.graph g).outputNodesInfo

/-- The node is listed already, or listed next. -/
theorem Enters.kept (he : Enters h g n h') (hk : Kept h g) (hn : n < h.nodeCount) {s : Option NodeId}
    {M : List NodeId} (hM : M = (h.graph g).nodes) (hr : (if n ∈ M then pure s else do
      let _ ← addNode g (some n)
      return s : Cmd Heap (Option NodeId)) h' = some (r, t)) : Kept t g := by
  subst hM
  split at hr
  · rename_i hmem
    obtain ⟨-, rfl⟩ := of_return hr
    refine ⟨he.nodes ▸ he.inside, ?_, fun x hx => ?_, fun p hp => ?_⟩
    · rw [he.size, hk.size, he.nodes]
    · rw [he.nodes]
      exact (he.inputs x hx).elim (fun e => e ▸ hmem) (hk.inputs x)
    · rw [he.nodes]
      exact (he.outputs p hp).elim (fun e => e ▸ hmem) (hk.outputs p)
  · obtain ⟨r', u, hu, hrest⟩ := bind_eq_some.mp hr
    obtain ⟨-, rfl⟩ := of_return hrest
    have hl := addNode_lists (g := g) (he.nodes.symm ▸ he.inside) (he.count ▸ hn) hu
    have hl' : Lists h g n u := by
      refine ⟨he.nodes ▸ hl.inside, hl.made, he.nodes ▸ hl.nodes, hl.size.trans (congrArg (· + 1) he.size), fun x hx => ?_,
        fun p hp => ?_⟩
      · exact (hl.inputs x hx).elim .inl (he.inputs x)
      · exact (hl.outputs p hp).elim .inl (he.outputs p)
    exact hl'.kept hk

theorem kept_addInputNode (hk : Kept h g) (hn : ∀ n ∈ node, n < h.nodeCount)
    (hr : addInputNode g node h = some (r, h')) : Kept h' g := by
  cases node with
  | none =>
    obtain ⟨-, rfl⟩ := of_return hr
    exact hk
  | some n =>
    simp only [addInputNode, edit, modify_bind_apply, get_bind_apply] at hr
    refine Enters.kept ?_ hk (hn n rfl) (by simp) hr
    refine ⟨hk.inside.setGraph _, rfl, by simp, by simp, fun x hx => ?_, fun p hp => ?_⟩
    · simp only [setGraph_graph, if_true, mem_append, mem_singleton] at hx
      exact hx.symm
    · simp only [setGraph_graph, if_true] at hp
      exact .inr hp

theorem kept_addOutputNodeByIndex (hk : Kept h g) (hn : ∀ n ∈ node, n < h.nodeCount) {index : Int}
    (hr : addOutputNodeByIndex g node index h = some (r, h')) : Kept h' g := by
  cases node with
  | none =>
    obtain ⟨-, rfl⟩ := of_return hr
    exact hk
  | some n =>
    simp only [addOutputNodeByIndex, edit, get_bind_apply] at hr
    split at hr
    · rw [modify_bind_apply] at hr
      refine Enters.kept ?_ hk (hn n rfl) rfl hr
      refine ⟨hk.inside.setGraph _, rfl, by simp, by simp, fun x hx => ?_, fun p hp => ?_⟩
      · simp only [setGraph_graph, if_true] at hx
        exact .inr hx
      · simp only [setGraph_graph, if_true, mem_append, mem_singleton] at hp
        exact hp.symm.imp_left fun e => by rw [e]
    · exact Enters.kept ⟨hk.inside, rfl, rfl, rfl, fun x hx => .inr hx, fun p hp => .inr hp⟩ hk (hn n rfl) rfl hr

/-! ## Ordering nodes -/

/-- A heap whose graph lists its nodes in another order. -/
structure Orders (h : Heap) (g : GraphId) (h' : Heap) : Prop where
  inside : Inside h' (h.graph g).nodes
  nodes : (h'.graph g).nodes.Perm (h.graph g).nodes
  inputs : (h'.graph g).inputNodes = (h.graph g).inputNodes
  outputs : (h'.graph g).outputNodesInfo = (h.graph g).outputNodesInfo

theorem Orders.kept (ho : Orders h g h') (hk : Kept h g) (hsize : (h'.graph g).directNodesSize = (h'.graph g).nodes.length) :
    Kept h' g := by
  refine ⟨ho.inside.mono (fun x hx => ho.nodes.mem_iff.mpr hx) fun x hx => ?_, hsize, fun x hx => ?_, fun p hp => ?_⟩
  · exact ho.inside.made x (ho.nodes.mem_iff.mp hx)
  · exact ho.nodes.mem_iff.mpr (hk.inputs x (ho.inputs ▸ hx))
  · exact ho.nodes.mem_iff.mpr (hk.outputs p (ho.outputs ▸ hp))

/-- Moving a node of the graph next to another. -/
theorem orders_moveEventNode (ho : Orders h g t) (hn : n ∈ (h.graph g).nodes) {other : Option NodeId} {behind : Nat}
    (hr : moveEventNode g n other behind t = some (u, h')) : Orders h g h' := by
  cases other with
  | none => simp [moveEventNode] at hr
  | some m =>
    simp only [moveEventNode, get_bind_apply, edit] at hr
    split at hr
    · cases hr
    · rename_i hle
      obtain ⟨-, rfl⟩ := of_return hr
      refine ⟨ho.inside.setGraph _, ?_, ?_, ?_⟩
      · rw [setGraph_graph, if_pos rfl]
        have hmem : n ∈ (t.graph g).nodes := ho.nodes.mem_iff.mpr hn
        exact ((perm_insertIdx n _ (Nat.le_of_not_lt hle)).trans (perm_cons_erase hmem).symm).trans ho.nodes
      · rw [setGraph_graph, if_pos rfl]
        exact ho.inputs
      · rw [setGraph_graph, if_pos rfl]
        exact ho.outputs

theorem orders_reorderEventNodes (l : List NodeId) (hl : ∀ n ∈ l, n ∈ (h.graph g).nodes) :
    ∀ {t : Heap} {u : Unit}, Orders h g t → reorderEventNodes g l t = some (u, h') → Orders h g h' := by
  induction l with
  | nil =>
    intro t u ho hr
    obtain ⟨-, rfl⟩ := of_return hr
    exact ho
  | cons n l ih =>
    intro t u ho hr
    have hn := hl n mem_cons_self
    have ih := @ih fun m hm => hl m (mem_cons_of_mem n hm)
    have hsend : ∀ {t' : Heap}, Orders h g t' →
        ((if Node.getType t n = "Send" then do
            moveEventNode g n (Node.getInControlNodes t n).head? 1
            reorderEventNodes g l
          else reorderEventNodes g l : Cmd Heap Unit) t' = some (u, h')) → Orders h g h' := by
      intro t' ho' hr
      split at hr
      · obtain ⟨u', v, hv, hrest⟩ := bind_eq_some.mp hr
        exact ih (orders_moveEventNode ho' hn hv) hrest
      · exact ih ho' hr
    rw [reorderEventNodes, get_bind_apply] at hr
    split at hr
    · obtain ⟨u', v, hv, hrest⟩ := bind_eq_some.mp hr
      exact hsend (orders_moveEventNode ho hn hv) hrest
    · exact hsend ho hr

theorem kept_insertEventNodes (hk : Kept h g) (hr : insertEventNodes g h = some (ok, h')) : Kept h' g := by
  rw [insertEventNodes, get_bind_apply] at hr
  obtain ⟨u, t, ht, hr⟩ := bind_eq_some.mp hr
  have ho : Orders h g t := orders_reorderEventNodes _ (fun n hn => hn) ⟨hk.inside, .refl _, rfl, rfl⟩ ht
  simp only [edit, modify_bind_apply, pure_apply, Option.some.injEq, Prod.mk.injEq] at hr
  obtain ⟨-, rfl⟩ := hr
  refine Orders.kept ⟨(ho.inside.setIds _ _).setGraph _, ?_, ?_, ?_⟩ hk ?_
  · simpa [setIds_graph] using ho.nodes
  · simpa [setIds_graph] using ho.inputs
  · simpa [setIds_graph] using ho.outputs
  · simp [setIds_graph]

theorem kept_topologicalSortingGraph (hk : Kept h g) {fuel : Nat} {runMode : Option Int} {dfsReverse : Bool}
    (hsize : ∀ v ∈ (h.graph g).nodes, Kahn.arrivals (SortRuns.targets h) (h.graph g).nodes v < uint32Size)
    (hr : topologicalSortingGraph fuel runMode dfsReverse g h = some (ok, h')) : Kept h' g := by
  cases ok with
  | false =>
    obtain rfl : h = h' := by
      simp only [topologicalSortingGraph, get_bind_apply] at hr
      cases hs : sortedNodes h fuel runMode dfsReverse g with
      | none => simp [hs] at hr
      | some r =>
        cases r with
        | none => simpa [hs] using hr
        | some vec =>
          by_cases hlen : vec.length = (h.graph g).directNodesSize
          · simp [hs, hlen] at hr
          · simpa [hs, hlen] using hr
    exact hk
  | true =>
    obtain ⟨vec, hperm, rfl⟩ := sort_perm hsize hk.size hr
    refine Orders.kept ⟨(hk.inside.setIds _ _).setGraph _, ?_, ?_, ?_⟩ hk ?_
    · simpa [listNodes] using hperm
    · simp [listNodes, setIds_graph]
    · simp [listNodes, setIds_graph]
    · simp [listNodes]

theorem kept_topologicalSortingBy (hk : Kept h g) {comp : NodeId → NodeId → Bool}
    (hr : topologicalSortingBy comp g h = some (u, h')) : Kept h' g := by
  simp only [topologicalSortingBy, edit, modify_bind_apply, modify_apply, Option.some.injEq, Prod.mk.injEq] at hr
  obtain ⟨-, rfl⟩ := hr
  have hperm : ((h.graph g).nodes.mergeSort fun a b => !comp b a).Perm (h.graph g).nodes := mergeSort_perm _ _
  refine Orders.kept ⟨(hk.inside.setGraph _).setIds _ _, ?_, ?_, ?_⟩ hk ?_
  · simpa [setIds_graph] using hperm
  · simp [setIds_graph]
  · simp [setIds_graph]
  · simp [setIds_graph, hk.size, hperm.length_eq]

/-! ## Edges -/

/-- What stays beside a node leaves the graph closed. -/
theorem Kept.within (hk : Kept h g) (hw : Within c n (h.graph g).nodes h h') : Kept h' g :=
  hk.of_graph hw.inside (congrFun hw.frame.2 g)

theorem within_link (hk : Kept h g) {a d : AnchorId} (ha : h.Held a) (hd : h.Held d) (haN : h.owner a ∈ (h.graph g).nodes)
    (hdN : h.owner d ∈ (h.graph g).nodes) (hka : (h.kind a).isIn = false) (hkd : (h.kind d).isIn = true)
    {free : Heap → AnchorId → Bool} (hr : Anchor.link a (some d) free h = some (ok, h')) :
    Within False (h.owner a) (h.graph g).nodes h h' := by
  have hba : Beside False (h.owner a) (h.graph g).nodes h a := ⟨ha, .inl rfl, False.elim⟩
  have hbd : Beside False (h.owner a) (h.graph g).nodes h d := ⟨hd, .inr ⟨haN, hdN⟩, False.elim⟩
  exact stays_link hba hbd hka hkd free h ok h' (.refl hk.inside) hr

/-- An anchor of a node the graph lists is held, by a node of the graph. -/
theorem of_isListedAnchor (hk : Kept h g) {x : Option AnchorId} (hx : GraphCall.isListedAnchor h g x = true) :
    ∀ a ∈ x, h.Held a ∧ h.owner a ∈ (h.graph g).nodes := by
  rintro a rfl
  simp only [GraphCall.isListedAnchor, Option.all_some, any_eq_true, decide_eq_true_eq, mem_flatMap] at hx
  obtain ⟨n, hn, k, -, ha⟩ := hx
  have hmade := hk.inside.made n hn
  exact ⟨hk.inside.sound.laid.held hmade ha, (hk.inside.sound.laid.owner n hmade k a ha).symm ▸ hn⟩

/-- Adding or removing an edge between nodes of the graph stays beside one of them, or beside whatever node. -/
theorem within_edge (hk : Kept h g) (ht : call.wellTyped h = true)
    (he : (call.edgeEnds.any fun e => GraphCall.isListedAnchor h g e.1 && GraphCall.isListedAnchor h g e.2) = true)
    (hr : call.run h = some (ok, h')) (m : NodeId) :
    ∃ n, (n = m ∨ n ∈ (h.graph g).nodes) ∧ Within False n (h.graph g).nodes h h' := by
  have hsame : ∃ n, (n = m ∨ n ∈ (h.graph g).nodes) ∧ Within False n (h.graph g).nodes h h := ⟨m, .inl rfl, .refl hk.inside⟩
  have htyped : ∀ {src dst : Option AnchorId} {k l : AnchorKind} {linkTo : AnchorId → Option AnchorId → Cmd Heap Bool}
      {free : Heap → AnchorId → Bool}, (∀ a d, linkTo a d = Anchor.link a d free) → k.isIn = false → l.isIn = true →
      LinkCall.isAnchorOf h k src = true → LinkCall.isAnchorOf h l dst = true →
      GraphCall.isListedAnchor h g src = true → GraphCall.isListedAnchor h g dst = true → ∀ {ok},
      GraphUtils.addEdgeBy linkTo src dst h = some (ok, h') →
        ∃ n, (n = m ∨ n ∈ (h.graph g).nodes) ∧ Within False n (h.graph g).nodes h h' := by
    intro src dst k l linkTo free hlink hk' hl hsrc hdst hsl hdl ok hadd
    rcases addEdgeBy_cases hadd with ⟨-, rfl⟩ | ⟨a, rfl, hlinked⟩
    · exact hsame
    · rw [hlink] at hlinked
      cases dst with
      | none =>
        rcases link_cases hlinked with ⟨-, rfl⟩ | ⟨-, o, ho, -⟩
        · exact hsame
        · cases ho
      | some d =>
        obtain ⟨ha, haN⟩ := of_isListedAnchor hk hsl a rfl
        obtain ⟨hd, hdN⟩ := of_isListedAnchor hk hdl d rfl
        refine ⟨h.owner a, .inr haN, within_link hk ha hd haN hdN ?_ ?_ hlinked⟩
        · rw [of_isAnchorOf hsrc a rfl, hk']
        · rw [of_isAnchorOf hdst d rfl, hl]
  cases call with
  | addDataEdge src dst =>
    simp only [LinkCall.wellTyped, LinkCall.edgeEnds, Option.any_some, and_eq_true] at ht he
    exact htyped (fun _ _ => rfl) rfl rfl ht.1 ht.2 he.1 he.2 hr
  | addControlEdge src dst =>
    simp only [LinkCall.wellTyped, LinkCall.edgeEnds, Option.any_some, and_eq_true] at ht he
    exact htyped (fun _ _ => rfl) rfl rfl ht.1 ht.2 he.1 he.2 hr
  | addDataControlEdge src dst =>
    simp only [LinkCall.wellTyped, LinkCall.edgeEnds, Option.any_some, and_eq_true] at ht he
    exact htyped (fun _ _ => rfl) rfl rfl ht.1 ht.2 he.1 he.2 hr
  | addDataEdgeWithFormat src sf dst df =>
    simp only [LinkCall.wellTyped, LinkCall.edgeEnds, Option.any_some, and_eq_true] at ht he
    obtain ⟨r, hedge⟩ := addDataEdgeWithFormat_cases hr
    exact htyped (fun _ _ => rfl) rfl rfl ht.1 ht.2 he.1 he.2 hedge
  | addEdge src dst =>
    simp only [LinkCall.edgeEnds, Option.any_some, and_eq_true] at he
    rcases addEdge_cases hr with ⟨-, rfl⟩ | ⟨-, a, d, rfl, rfl, hka, hkd, -, rfl⟩
    · exact hsame
    · obtain ⟨ha, haN⟩ := of_isListedAnchor hk he.1 a rfl
      obtain ⟨hd, hdN⟩ := of_isListedAnchor hk he.2 d rfl
      have hlink : Anchor.link a (some d) (fun _ _ => true) h = some (true, _) := rfl
      exact ⟨h.owner a, .inr haN, within_link hk ha hd haN hdN hka hkd hlink⟩
  | removeEdge src dst =>
    cases src with
    | none =>
      obtain ⟨-, rfl⟩ := of_return hr
      exact hsame
    | some a => exact ⟨m, .inl rfl, stays_unlink a dst h ok h' (.refl hk.inside) hr⟩
  | _ => simp [LinkCall.edgeEnds] at he

theorem kept_edge (hk : Kept h g) (ht : call.wellTyped h = true)
    (he : (call.edgeEnds.any fun e => GraphCall.isListedAnchor h g e.1 && GraphCall.isListedAnchor h g e.2) = true)
    (hr : call.run h = some (ok, h')) : Kept h' g := by
  obtain ⟨_, -, hw⟩ := within_edge hk ht he hr 0
  exact hk.within hw

end ClosedAux

end Metadef
