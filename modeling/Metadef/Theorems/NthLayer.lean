import Metadef.Linking

/-!
# The node of a layer

`GetSingleOutputNodeOfNthLayer` looks at the outputs of the node it was given in every round, so that it finds the node of the first
layer whatever the depth.
-/

namespace Metadef

open NodeUtils

namespace Heap

variable (h : Heap)

/-- A chain of nodes of a length, each with one data consumer, which is the next. -/
def SingleChain : Nat → NodeId → NodeId → Prop
  | 0, v, w => v = w
  | d + 1, v, w => ∃ u, Node.getOutDataNodes h v = [u] ∧ SingleChain d u w

/-- The function succeeds exactly when there is a chain of the depth, and then returns its end. -/
structure FindsNthLayer (src : NodeId) (depth : Int) (dst : Option NodeId) : Prop where
  status : (getSingleOutputNodeOfNthLayer h (some src) depth dst).1 = true ↔ ∃ w, h.SingleChain depth.toNat src w
  node : (getSingleOutputNodeOfNthLayer h (some src) depth dst).1 = true →
    ∃ w, (getSingleOutputNodeOfNthLayer h (some src) depth dst).2 = some w ∧ h.SingleChain depth.toNat src w

/-- The node is not one with a single data consumer, or that consumer leads back to itself in the layers that remain. -/
def LeadsBack (src : NodeId) (depth : Int) : Prop :=
  ∀ u, Node.getOutDataNodes h src = [u] → h.SingleChain (depth.toNat - 1) u u

end Heap

namespace NthLayerAux

open Heap

variable {h : Heap} {src v w : NodeId} {cur : Option NodeId}

/-- A node with one consumer is left at that consumer after any round. -/
theorem layers_single {u : NodeId} (hout : Node.getOutDataNodes h src = [u]) (d : Nat) (cur : Option NodeId) :
    layers h src (d + 1) cur = some (some u) := by
  induction d generalizing cur with
  | zero =>
    rw [layers, hout]
    rfl
  | succ d ih =>
    rw [layers, hout]
    exact ih (some u)

theorem layers_none (hout : ∀ u, Node.getOutDataNodes h src ≠ [u]) (d : Nat) : layers h src (d + 1) cur = none := by
  rw [layers]
  split
  · rename_i u hu
    exact absurd hu (hout u)
  · rfl

end NthLayerAux

open NthLayerAux in
/-- The node of a layer is found exactly when there is none, or it is that of the first. -/
theorem findsNthLayer_iff (h : Heap) (src : NodeId) (depth : Int) (dst : Option NodeId) (hdepth : 1 ≤ depth) :
    h.FindsNthLayer src depth dst ↔ h.LeadsBack src depth := by
  obtain ⟨d, rfl⟩ : ∃ d : Nat, depth = (d : Int) + 1 := ⟨(depth - 1).toNat, by omega⟩
  have hnat : ((d : Int) + 1).toNat = d + 1 := by omega
  by_cases hout : ∃ u, Node.getOutDataNodes h src = [u]
  · obtain ⟨u, hu⟩ := hout
    have hrun : getSingleOutputNodeOfNthLayer h (some src) ((d : Int) + 1) dst = (true, some u) := by
      rw [getSingleOutputNodeOfNthLayer, if_neg (by omega), hnat, layers_single hu]
    constructor
    · intro hfinds u' hu'
      obtain rfl := List.singleton_inj.mp (hu.symm.trans hu')
      obtain ⟨w, hw, hchain⟩ := hfinds.node (by rw [hrun])
      rw [hrun] at hw
      obtain rfl := Option.some.inj hw
      rw [hnat] at hchain ⊢
      obtain ⟨u', hu', hchain⟩ := hchain
      obtain rfl := List.singleton_inj.mp (hu.symm.trans hu')
      exact hchain
    · intro hback
      have hchain := hback u hu
      rw [hnat, Nat.add_sub_cancel] at hchain
      have hfull : h.SingleChain ((d : Int) + 1).toNat src u := by
        rw [hnat]
        exact ⟨u, hu, hchain⟩
      exact ⟨⟨fun _ => ⟨u, hfull⟩, fun _ => by rw [hrun]⟩, fun _ => ⟨u, by rw [hrun], hfull⟩⟩
  · have hnone : ∀ u, Node.getOutDataNodes h src ≠ [u] := fun u hu => hout ⟨u, hu⟩
    have hrun : getSingleOutputNodeOfNthLayer h (some src) ((d : Int) + 1) dst = (false, dst) := by
      rw [getSingleOutputNodeOfNthLayer, if_neg (by omega), hnat, layers_none hnone]
    refine iff_of_true ⟨⟨fun hok => ?_, fun hchain => ?_⟩, fun hok => ?_⟩ fun u hu => absurd hu (hnone u)
    · rw [hrun] at hok
      cases hok
    · obtain ⟨w, hchain⟩ := hchain
      rw [hnat] at hchain
      obtain ⟨u, hu, -⟩ := hchain
      exact absurd hu (hnone u)
    · rw [hrun] at hok
      cases hok

namespace NthLayerWitness

/-- A node that feeds a second, which feeds a third. Control anchors come first. -/
def chain : Heap := (LinkCall.runAll
  [.newOp { opDef := { name := "a", type := "Data" }, outputsDesc := [{}] }, .newNode 0,
    .newOp { opDef := { name := "b", type := "Relu" }, inputsDesc := [{}], outputsDesc := [{}] }, .newNode 1,
    .newOp { opDef := { name := "c", type := "Relu" }, inputsDesc := [{}] }, .newNode 2,
    .addDataEdge (some 2) (some 5), .addDataEdge (some 6) (some 9)]).getD .empty

theorem findsNthLayer_first : chain.FindsNthLayer 0 1 none :=
  (findsNthLayer_iff chain 0 1 none (by decide)).mpr fun _ _ => rfl

/-- For the second layer the node of the first is returned. -/
theorem findsNthLayer_false :
    ¬ ∀ (h : Heap) (src : NodeId) (depth : Int) (dst : Option NodeId), 1 ≤ depth → h.FindsNthLayer src depth dst := by
  intro hall
  have hfirst : getSingleOutputNodeOfNthLayer chain (some 0) 2 none = (true, some 1) := by decide +kernel
  obtain ⟨w, hw, u, hu, v, hv, hvw⟩ := (hall chain 0 2 none (by decide)).node (by rw [hfirst])
  rw [hfirst] at hw
  obtain rfl := Option.some.inj hw
  rw [show Node.getOutDataNodes chain 0 = [1] by decide +kernel, List.singleton_inj] at hu
  rw [← hu, show Node.getOutDataNodes chain 1 = [2] by decide +kernel, List.singleton_inj] at hv
  exact absurd (hv.trans hvw) (by decide)

end NthLayerWitness

end Metadef
