import Metadef.Lemmas.NodeWalks
import Metadef.Theorems.TopoSound

/-!
# Sorting several graphs

A sort changes the order of one graph and the ids, and nothing another sort or the walk over nested graphs reads. So graphs
sorted one after the other are all in order, and the walk lists the same nodes.
-/

namespace Metadef

open Heap ComputeGraph SortRuns SortOrder TopoSoundAux Cmd

/-- The facts about a graph by which a sort of it lists its nodes in another order: the counter counts them, and none takes as
many arrivals as a counter has values. -/
structure Heap.Countable (h : Heap) (x : GraphId) : Prop where
  size : (h.graph x).directNodesSize = (h.graph x).nodes.length
  arrivals : ∀ v ∈ (h.graph x).nodes, Kahn.arrivals (SortRuns.targets h) (h.graph x).nodes v < uint32Size

instance (h : Heap) (x : GraphId) : Decidable (h.Countable x) :=
  decidable_of_iff ((h.graph x).directNodesSize = (h.graph x).nodes.length ∧
      ∀ v ∈ (h.graph x).nodes, Kahn.arrivals (SortRuns.targets h) (h.graph x).nodes v < uint32Size)
    ⟨fun hc => ⟨hc.1, hc.2⟩, fun hc => ⟨hc.1, hc.2⟩⟩

namespace ResortAux

/-- Two heaps differ in the order of nodes in graphs, whether graphs were sorted, and ids. -/
structure Reordered (h t : Heap) : Prop where
  node : t.node = h.node
  anchor : t.anchor = h.anchor
  nodeCount : t.nodeCount = h.nodeCount
  anchorCount : t.anchorCount = h.anchorCount
  op : ∀ o, ∃ i, t.op o = (h.op o).setId i
  nodes : ∀ x, (t.graph x).nodes.Perm (h.graph x).nodes
  graph : ∀ x, ∃ flag, t.graph x = { h.graph x with nodes := (t.graph x).nodes, isValidFlag := flag }

variable {h t t' : Heap} {g x : GraphId} {fuel : Nat} {runMode : Option Int} {reverse ok : Bool}

theorem Reordered.refl (h : Heap) : Reordered h h :=
  ⟨rfl, rfl, rfl, rfl, fun o => ⟨(h.op o).getId, rfl⟩, fun _ => .refl _, fun _ => ⟨_, rfl⟩⟩

theorem Reordered.trans (ho : Reordered h t) (ho' : Reordered t t') : Reordered h t' := by
  refine ⟨ho'.node.trans ho.node, ho'.anchor.trans ho.anchor, ho'.nodeCount.trans ho.nodeCount,
    ho'.anchorCount.trans ho.anchorCount, fun o => ?_, fun x => (ho'.nodes x).trans (ho.nodes x), fun x => ?_⟩
  · obtain ⟨i, hi⟩ := ho.op o
    obtain ⟨j, hj⟩ := ho'.op o
    exact ⟨j, by rw [hj, hi]; rfl⟩
  · obtain ⟨flag, hf⟩ := ho.graph x
    obtain ⟨flag', hf'⟩ := ho'.graph x
    exact ⟨flag', by rw [hf', hf]⟩

/-! ## What is read of the heap -/

theorem Reordered.peers (ho : Reordered h t) : t.peers = h.peers := by
  funext a
  unfold Heap.peers
  rw [ho.anchor]

theorem Reordered.kind (ho : Reordered h t) : t.kind = h.kind := by
  funext a
  unfold Heap.kind
  rw [ho.anchor]

theorem Reordered.owner (ho : Reordered h t) : t.owner = h.owner := by
  funext a
  unfold Heap.owner
  rw [ho.anchor]

theorem Reordered.anchorsOf (ho : Reordered h t) : t.anchorsOf = h.anchorsOf := by
  funext n k
  cases k <;> simp [Heap.anchorsOf, ho.node]

theorem Reordered.desc (ho : Reordered h t) (n : NodeId) : ∃ i, t.desc n = (h.desc n).setId i := by
  unfold Heap.desc
  rw [ho.node]
  exact ho.op _

theorem Reordered.targets (ho : Reordered h t) : SortRuns.targets t = SortRuns.targets h := by
  have hblocks : outDataBlocks t = outDataBlocks h := by
    funext a
    simp only [outDataBlocks, OutDataAnchor.getPeerInDataAnchors, OutDataAnchor.getPeerInControlAnchors, Anchor.getPeersOf,
      ho.peers, ho.kind, ho.owner]
  funext n
  simp only [SortRuns.targets, outBlocks, hblocks, ho.peers, ho.owner, ho.node]

theorem Reordered.isLoopLink (ho : Reordered h t) : t.isLoopLink = h.isLoopLink := by
  funext a b
  obtain ⟨i, hi⟩ := ho.desc (h.owner a)
  simp only [Heap.isLoopLink, Node.isNextIteration, Node.getType, ho.kind, ho.owner, hi]
  rfl

theorem Reordered.edge (ho : Reordered h t) (r : AnchorId → AnchorId → Bool) : t.Edge r = h.Edge r := by
  funext u v
  simp only [Heap.Edge, ho.peers, ho.kind, ho.owner]

theorem Reordered.ahead (ho : Reordered h t) : t.Ahead = h.Ahead := by
  funext u v
  simp only [Heap.Ahead, ho.isLoopLink, ho.edge]

theorem Reordered.loopEdge (ho : Reordered h t) : t.LoopEdge = h.LoopEdge := by
  funext u v
  simp only [Heap.LoopEdge, ho.isLoopLink, ho.edge]

theorem Reordered.names (ho : Reordered h t) (x : GraphId) :
    (t.graph x).namesToSubgraph = (h.graph x).namesToSubgraph ∧ (t.graph x).subGraph = (h.graph x).subGraph ∧
      (t.graph x).parentGraph = (h.graph x).parentGraph ∧ (t.graph x).directNodesSize = (h.graph x).directNodesSize := by
  obtain ⟨flag, hf⟩ := ho.graph x
  rw [hf]
  exact ⟨rfl, rfl, rfl, rfl⟩

theorem Reordered.resolved (ho : Reordered h t) (n : NodeId) : t.resolved g n = h.resolved g n := by
  obtain ⟨i, hi⟩ := ho.desc n
  unfold Heap.resolved
  rw [hi, (ho.names g).1]
  rfl

theorem Reordered.inner (ho : Reordered h t) (n : NodeId) : (t.inner g n).Perm (h.inner g n) := by
  unfold Heap.inner
  rw [ho.resolved]
  exact List.Perm.flatMap_left _ fun x _ => ho.nodes x

/-- The walk lists the same nodes. -/
theorem Reordered.nodesInOrder (ho : Reordered h t) {out : List NodeId} (hp : h.NodesInOrder g out) :
    ∃ out', t.NodesInOrder g out' ∧ out'.Perm out :=
  Preordered.of_perm ho.inner hp (ho.nodes g)

theorem Reordered.symm (ho : Reordered h t) : Reordered t h := by
  refine ⟨ho.node.symm, ho.anchor.symm, ho.nodeCount.symm, ho.anchorCount.symm, fun o => ?_, fun x => (ho.nodes x).symm,
    fun x => ?_⟩
  · obtain ⟨i, hi⟩ := ho.op o
    exact ⟨(h.op o).getId, by rw [hi]; rfl⟩
  · obtain ⟨flag, hf⟩ := ho.graph x
    exact ⟨(h.graph x).isValidFlag, by rw [hf]⟩

/-! ## Steps -/

theorem reordered_setIds (l : List NodeId) : ∀ (i : Nat) (h : Heap), Reordered h (setIds l i h) := by
  induction l with
  | nil => exact fun _ h => Reordered.refl h
  | cons n l ih =>
    intro i h
    have hstep : Reordered h (h.setOp (h.node n).op ((h.desc n).setId i)) := by
      refine ⟨rfl, rfl, rfl, rfl, fun o => ?_, fun _ => .refl _, fun _ => ⟨_, rfl⟩⟩
      rw [Heap.setOp_op]
      split
      · rename_i ho
        rw [ho]
        exact ⟨i, rfl⟩
      · exact ⟨(h.op o).getId, rfl⟩
    exact hstep.trans (ih (i + 1) _)

/-- A sort that fails changes nothing. -/
theorem sort_false (hr : topologicalSortingGraph fuel runMode reverse x h = some (false, t)) : t = h := by
  simp only [topologicalSortingGraph, get_bind_apply] at hr
  cases hs : sortedNodes h fuel runMode reverse x with
  | none => simp [hs] at hr
  | some r =>
    cases r with
    | none => simpa [hs, eq_comm] using hr
    | some vec =>
      by_cases hlen : vec.length = (h.graph x).directNodesSize
      · simp [hs, hlen] at hr
      · simpa [hs, hlen, eq_comm] using hr

theorem Reordered.countable (ho : Reordered h t) (hc : h.Countable x) : t.Countable x := by
  refine ⟨?_, fun v hv => ?_⟩
  · rw [(ho.names x).2.2.2, hc.size, (ho.nodes x).length_eq]
  · have harrivals : Kahn.arrivals (SortRuns.targets t) (t.graph x).nodes v =
        Kahn.arrivals (SortRuns.targets h) (h.graph x).nodes v := by
      rw [ho.targets]
      exact ((ho.nodes x).map _).sum_eq
    rw [harrivals]
    exact hc.arrivals v ((ho.nodes x).mem_iff.mp hv)

/-- A sort reorders. -/
theorem reordered_sort (hc : h.Countable x) (hr : topologicalSortingGraph fuel runMode reverse x h = some (ok, t)) :
    Reordered h t := by
  cases ok with
  | false =>
    rw [sort_false hr]
    exact Reordered.refl h
  | true =>
    obtain ⟨vec, hperm, rfl⟩ := sort_perm hc.arrivals hc.size hr
    refine (reordered_setIds vec 0 h).trans ⟨rfl, rfl, rfl, rfl, fun o => ⟨_, rfl⟩, fun y => ?_, fun y => ?_⟩
    · unfold listNodes
      rw [setGraph_graph, setIds_graph]
      split
      · rename_i hy
        rw [hy]
        exact hperm
      · exact .refl _
    · unfold listNodes
      rw [setGraph_graph, setIds_graph]
      split
      · rename_i hy
        have hlen : vec.length = (h.graph x).directNodesSize := by rw [hc.size, hperm.length_eq]
        exact ⟨true, by rw [hy, hlen]⟩
      · exact ⟨_, rfl⟩

/-- Sorting graphs one after the other reorders. -/
theorem reordered_eachOk {l : List GraphId} (hl : ∀ x ∈ l, h.Countable x) :
    ∀ {t : Heap}, Reordered h t → Cmd.eachOk (topologicalSortingGraph fuel runMode reverse) l t = some (ok, t') →
      Reordered h t' := by
  intro t ho hr
  refine Cmd.Keeps.eachOk (P := Reordered h) (fun x hx => ?_) t ok t' ho hr
  intro s r s' hs hsort
  exact hs.trans (reordered_sort (hs.countable (hl x hx)) hsort)

/-! ## The sort of a graph and its subgraphs -/

/-- The nodes numbered and the list of subgraphs replaced when as many were met. -/
def numbered (g : GraphId) (nodes : List NodeId) (subgraphs : List GraphId) (t : Heap) : Heap :=
  let t := setIds nodes 0 t
  if (t.graph g).subGraph.length ≠ subgraphs.length then t else t.setGraph g { t.graph g with subGraph := subgraphs }

/-- How `TopologicalSorting` comes to an end. -/
theorem topologicalSorting_cases {h' : Heap} (hr : topologicalSorting fuel runMode g h = some (ok, h')) :
    ∃ ok₁ t₁, topologicalSortingGraph fuel runMode false g h = some (ok₁, t₁) ∧
      ((ok₁ = false ∧ ok = false ∧ h' = t₁) ∨ (ok₁ = true ∧ ok = true ∧ (t₁.graph g).subGraph = [] ∧ h' = t₁) ∨
        (ok₁ = true ∧ ∃ ok₂ t₂,
          Cmd.eachOk (topologicalSortingGraph fuel runMode false) (t₁.graph g).subGraph t₁ = some (ok₂, t₂) ∧
            ((ok₂ = false ∧ ok = false ∧ h' = t₂) ∨ (ok₂ = true ∧ ok = true ∧
              ∃ nodes subgraphs, allGraphNodes t₂ fuel g = some (nodes, subgraphs) ∧ h' = numbered g nodes subgraphs t₂)))) := by
  unfold topologicalSorting at hr
  obtain ⟨ok₁, t₁, h₁, hr⟩ := Cmd.bind_eq_some.mp hr
  refine ⟨ok₁, t₁, h₁, ?_⟩
  cases ok₁ with
  | false =>
    obtain ⟨rfl, rfl⟩ := of_return hr
    exact .inl ⟨rfl, rfl, rfl⟩
  | true =>
    simp only [Bool.not_true, Bool.false_eq_true, if_false, get_bind_apply] at hr
    split at hr
    · rename_i hempty
      obtain ⟨rfl, rfl⟩ := of_return hr
      exact .inr (.inl ⟨rfl, rfl, List.isEmpty_iff.mp hempty, rfl⟩)
    · obtain ⟨ok₂, t₂, h₂, hr⟩ := Cmd.bind_eq_some.mp hr
      refine .inr (.inr ⟨rfl, ok₂, t₂, h₂, ?_⟩)
      cases ok₂ with
      | false =>
        obtain ⟨rfl, rfl⟩ := of_return hr
        exact .inl ⟨rfl, rfl, rfl⟩
      | true =>
        simp only [Bool.not_true, Bool.false_eq_true, if_false, get_bind_apply] at hr
        cases hw : allGraphNodes t₂ fuel g with
        | none => simp [hw] at hr
        | some r =>
          obtain ⟨nodes, subgraphs⟩ := r
          simp only [hw, modify_bind_apply] at hr
          by_cases hlen : (t₂.graph g).subGraph.length = subgraphs.length
          · obtain ⟨rfl, rfl⟩ : true = ok ∧ _ = h' := by simpa [hlen, edit] using hr
            exact .inr ⟨rfl, rfl, nodes, subgraphs, rfl, by simp [numbered, hlen]⟩
          · obtain ⟨rfl, rfl⟩ : true = ok ∧ _ = h' := by simpa [hlen] using hr
            exact .inr ⟨rfl, rfl, nodes, subgraphs, rfl, by simp [numbered, hlen]⟩

end ResortAux

end Metadef
