import Metadef.Lemmas.ClosedRemove
import Metadef.Theorems.LinkSymmetry

/-!
# A graph stays closed

In every run whose calls remove a node only where it leaves no link and no input behind, the counter of a graph is the length
of its node list, its inputs and outputs are listed, and an edge at a listed node ends at a listed node.
-/

namespace Metadef

open Cmd

/-- The counter counts the nodes, the inputs and outputs are among them, and so are the ends of their edges. -/
structure Heap.Closed (h : Heap) (g : GraphId) : Prop where
  size : (h.graph g).directNodesSize = (h.graph g).nodes.length
  inputs : ∀ n ∈ (h.graph g).inputNodes, n ∈ (h.graph g).nodes
  outputs : ∀ p ∈ (h.graph g).outputNodesInfo, p.1 ∈ (h.graph g).nodes
  edges : ∀ a, ∀ b ∈ h.peers a, h.owner a ∈ (h.graph g).nodes → h.owner b ∈ (h.graph g).nodes

/-- A call that removes a listed node only when that node may be removed, and sorts only nodes of fewer than `2^32` in-links. -/
def GraphCall.Careful (g : GraphId) (h : Heap) : GraphCall → Prop
  | removeNode node => ∀ n ∈ node, n ∈ (h.graph g).nodes → h.Removable g n
  | topologicalSorting _ _ _ =>
    ∀ n ∈ (h.graph g).nodes, Kahn.arrivals (SortRuns.targets h) (h.graph g).nodes n < uint32Size
  | _ => True

instance (g : GraphId) (h : Heap) (c : GraphCall) : Decidable (c.Careful g h) := by
  cases c <;> simp only [GraphCall.Careful] <;> infer_instance

namespace ClosedAux

open CallAux LinkSymmetryAux

variable {h h' : Heap} {g : GraphId}

theorem Kept.closed (hk : Kept h g) : h.Closed g := by
  refine ⟨hk.size, hk.inputs, hk.outputs, fun a b hb ha => ?_⟩
  rcases hk.inside.links a b hb with he | hin
  · exact he ▸ ha
  · exact hin.2

/-- The calls that remove a node. -/
theorem kept_removeNode (hk : Kept h g) {node : Option NodeId} (hn : ∀ n ∈ node, n < h.nodeCount)
    (hc : ∀ n ∈ node, n ∈ (h.graph g).nodes → h.Removable g n) {ok : Bool}
    (hr : ComputeGraph.removeNode g node h = some (ok, h')) : Kept h' g := by
  cases node with
  | none =>
    obtain ⟨-, rfl⟩ := of_return hr
    exact hk
  | some n =>
    by_cases hmem : n ∈ (h.graph g).nodes
    · exact (removeNode_listed_spec hk hmem (hc n rfl hmem) hr).kept
    · exact (removeNode_absent_spec hk (hn n rfl) hmem hr).kept

/-- A careful call keeps the graph closed. -/
theorem kept_run (hk : Kept h g) {call : GraphCall} (ht : call.wellTyped h g = true) (hc : call.Careful g h) {u : Unit}
    (hr : call.run g h = some (u, h')) : Kept h' g := by
  -- what a call returns is dropped
  have hdrop : ∀ {α : Type} {x : Cmd Heap α}, (do let _ ← x; pure ()) h = some (u, h') → ∃ r, x h = some (r, h') := by
    intro α x hx
    obtain ⟨r, t, ht, hrest⟩ := bind_eq_some.mp hx
    obtain ⟨-, rfl⟩ := of_return hrest
    exact ⟨r, ht⟩
  cases call with
  | newOp op =>
    obtain rfl : LinkCall.makeOp op h = h' := by simpa [GraphCall.run] using hr
    exact hk.of_graph (hk.inside.of_anchors rfl rfl rfl rfl) rfl
  | newNode op =>
    obtain ⟨n, hr⟩ := hdrop hr
    obtain ⟨hi, hg, -⟩ := make_spec hk.inside hr
    exact hk.of_graph hi (congrFun hg g)
  | addNode node => exact (hdrop hr).elim fun r hr => kept_addNode hk (of_isNode ht) hr
  | addOpNode op => exact (hdrop hr).elim fun r hr => kept_addOpNode hk hr
  | addOpNodeWithId op id => exact (hdrop hr).elim fun r hr => kept_addOpNodeWithId hk hr
  | addNodeFront node => exact (hdrop hr).elim fun r hr => kept_addNodeFront hk (of_isNode ht) hr
  | addOpNodeFront op => exact (hdrop hr).elim fun r hr => kept_addOpNodeFront hk hr
  | addInputNode node => exact (hdrop hr).elim fun r hr => kept_addInputNode hk (of_isNode ht) hr
  | addOutputNodeByIndex node index => exact (hdrop hr).elim fun r hr => kept_addOutputNodeByIndex hk (of_isNode ht) hr
  | removeNode node => exact (hdrop hr).elim fun r hr => kept_removeNode hk (of_isNode ht) hc hr
  | removeInputNode node => exact (hdrop hr).elim fun r hr => kept_removeInputNode hk hr
  | removeOutputNode node => exact (hdrop hr).elim fun r hr => kept_removeOutputNode hk hr
  | insertEventNodes => exact (hdrop hr).elim fun r hr => kept_insertEventNodes hk hr
  | topologicalSorting fuel runMode dfsReverse =>
    exact (hdrop hr).elim fun r hr => kept_topologicalSortingGraph hk hc hr
  | topologicalSortingBy comp => exact kept_topologicalSortingBy hk hr
  | edge call =>
    simp only [GraphCall.wellTyped, Bool.and_eq_true] at ht
    exact (hdrop hr).elim fun r hr => kept_edge hk ht.1 ht.2 hr

theorem kept_empty : Kept Heap.empty g where
  inside := ⟨sound_empty, fun _ _ hb => absurd hb List.not_mem_nil, fun _ hn => absurd hn List.not_mem_nil,
    fun _ _ hb => absurd hb List.not_mem_nil⟩
  size := rfl
  inputs := by simp [Heap.empty]
  outputs := by simp [Heap.empty]

end ClosedAux

open ClosedAux

/-- In every run of careful calls a graph stays closed, in the heap the run ends in and so in every heap it passes. -/
theorem graph_closed (g : GraphId) (calls : List GraphCall) (h : Heap)
    (hcareful : Run.Each (GraphCall.step g) (GraphCall.Careful g) calls .empty)
    (hrun : GraphCall.runAll g calls = some h) : h.Closed g := by
  refine Kept.closed (Run.invariant (P := fun h => Kept h g) ?_ calls Heap.empty h kept_empty hcareful hrun)
  intro h c h' hk hc hstep
  simp only [GraphCall.step] at hstep
  split at hstep
  · rename_i ht
    obtain ⟨⟨u, t⟩, hr, rfl⟩ := Option.map_eq_some_iff.mp hstep
    exact kept_run hk ht hc hr
  · cases hstep

namespace ClosedWitness

/-- A constant feeds a node, which is an input and an output, and which feeds another. -/
def building : List GraphCall :=
  [.newOp { opDef := { name := "c", type := "Const" }, outputsDesc := [{}] }, .addOpNode (some 0),
    .newOp { opDef := { name := "n", type := "Relu" }, inputsDesc := [{}], outputsDesc := [{}] }, .addOpNode (some 1),
    .newOp { opDef := { name := "m", type := "Relu" }, inputsDesc := [{}] }, .newNode 2, .addNode (some 2),
    .addInputNode (some 1), .addOutputNodeByIndex (some 1) 0,
    .edge (.addDataEdge (some 2) (some 5)), .edge (.addDataEdge (some 6) (some 9)),
    .topologicalSorting 9 none false]

/-- The heap after the building and one more call or two, each of which goes through. -/
def builtBy (calls : List GraphCall) : Heap := (GraphCall.runAll 0 (building ++ calls)).getD .empty

theorem runAll_building {calls : List GraphCall} (hok : (GraphCall.runAll 0 (building ++ calls)).isSome = true) :
    GraphCall.runAll 0 (building ++ calls) = some (builtBy calls) := by
  obtain ⟨h, hh⟩ := Option.isSome_iff_exists.mp hok
  rw [builtBy, hh, Option.getD_some]

/-- The node is removed. -/
def removed : List GraphCall := [.removeNode (some 1)]

/-- The constant is removed with the node, and the input and output. -/
theorem graph_closed_building : (builtBy removed).Closed 0 ∧ ((builtBy removed).graph 0).nodes = [2] := by
  have hrun : GraphCall.runAll 0 (building ++ removed) = some (builtBy removed) := runAll_building (by decide +kernel)
  have hcareful : Run.Each (GraphCall.step 0) (GraphCall.Careful 0) (building ++ removed) .empty := by decide +kernel
  exact ⟨graph_closed 0 _ _ hcareful hrun, by decide +kernel⟩

/-- A node is made an input twice, and removed. -/
def inputTwice : List GraphCall := [.addInputNode (some 1), .removeNode (some 1)]

/-- A node that was made an input twice stays an input when it is removed. -/
theorem graph_closed_false :
    ¬ ∀ (g : GraphId) (calls : List GraphCall) (h : Heap), GraphCall.runAll g calls = some h → h.Closed g := by
  intro hall
  have hclosed : (builtBy inputTwice).Closed 0 := hall 0 _ _ (runAll_building (by decide +kernel))
  have hnot : ¬ ∀ n ∈ ((builtBy inputTwice).graph 0).inputNodes, n ∈ ((builtBy inputTwice).graph 0).nodes := by
    decide +kernel
  exact hnot hclosed.inputs

end ClosedWitness

end Metadef
