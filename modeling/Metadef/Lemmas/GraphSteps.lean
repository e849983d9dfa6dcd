import Metadef.ComputeGraph
import Metadef.WellFormed

/-!
# What the functions of graphs do to the heap

Listing and unlisting nodes leaves all anchors.
-/

namespace Metadef

open Cmd

namespace GraphSteps

variable {h h' : Heap}

/-- Listing a node leaves a heap sound. -/
theorem sound_addNode {g : GraphId} {node r : Option NodeId} (hs : h.Sound)
    (hr : ComputeGraph.addNode g node h = some (r, h')) : h'.Sound := by
  cases node with
  | none =>
    obtain ⟨-, rfl⟩ := of_return hr
    exact hs
  | some n =>
    simp only [ComputeGraph.addNode, modify_bind_apply, pure_apply, Option.some.injEq, Prod.mk.injEq] at hr
    obtain ⟨-, rfl⟩ := hr
    refine hs.of_anchors rfl rfl ?_ rfl
    funext m k
    cases k <;> simp only [Heap.anchorsOf, Heap.setGraph_node, Heap.setOp_node, Heap.setNode_node] <;> split <;> simp_all

/-- Writing a graph leaves a heap sound. -/
theorem sound_setGraph (hs : h.Sound) (g : GraphId) (x : ComputeGraph) : (h.setGraph g x).Sound :=
  hs.of_anchors rfl rfl rfl rfl

/-- The nodes added to a graph, in order. -/
def addAll (g : GraphId) (h : Heap) (nodes : List NodeId) : Heap :=
  nodes.foldl (fun h n => ((ComputeGraph.addNode g (some n) h).map Prod.snd).getD h) h

theorem sound_addAll (g : GraphId) (nodes : List NodeId) : ∀ {h : Heap}, h.Sound → (addAll g h nodes).Sound := by
  induction nodes with
  | nil => exact fun hs => hs
  | cons n l ih =>
    intro h hs
    refine ih ?_
    have hr : ComputeGraph.addNode g (some n) h =
        some (some n, ((ComputeGraph.addNode g (some n) h).map Prod.snd).getD h) := rfl
    exact sound_addNode hs hr

/-- Adding nodes to a graph leaves the others. -/
theorem addAll_graph {g x : GraphId} (hx : x ≠ g) (nodes : List NodeId) : ∀ h : Heap, (addAll g h nodes).graph x = h.graph x := by
  induction nodes with
  | nil => exact fun _ => rfl
  | cons n l ih =>
    intro h
    refine (ih _).trans ?_
    simp [ComputeGraph.addNode, hx]

end GraphSteps

end Metadef
