import Metadef.Lib.GuardedWrites
import Metadef.Lemmas.CallSteps
import Metadef.Lemmas.LinkLists
import Metadef.Weights

/-!
# New constants

A constant that is made for a weight and put into a graph leaves all other objects, the weights and the links. Then it is linked to an
input.
-/

namespace Metadef

namespace NewConstsAux

open Cmd OpDescUtils Function

variable {s u : WeightHeap} {h : Heap} {n : NodeId} {out a : AnchorId} {t : Tensor}

theorem onHeap_apply {α : Type} {c : Cmd Heap α} {r : α} (hc : c s.heap = some (r, h)) : WeightHeap.onHeap c s = some
    (r, { s with heap := h }) := by
  rw [WeightHeap.onHeap, hc]
  rfl

/-! ## Making -/

/-- The descriptor of a new constant. -/
def constDesc (tid count : Nat) (t : Tensor) : OpDesc :=
  ((OpDesc.make ("dynamic_const_" ++ toString tid ++ "_" ++ toString count) "Const").addOutputDesc t.tensorDesc).2

/-- What making a constant leaves: one descriptor more, which has the weight. -/
def constMade (tid : Nat) (t : Tensor) (s : WeightHeap) : WeightHeap where
  heap := LinkCall.makeOp (constDesc tid s.constCount t) s.heap
  weight := Function.update s.weight s.heap.opCount (.tensor t)
  constCount := s.constCount + 1

theorem createConstOp_eq (tid : Nat) (t : Tensor) (s : WeightHeap) :
    createConstOp tid (some t) s = some (some s.heap.opCount, constMade tid t s) := by
  have hset : setWeightsOf s.heap.opCount (some t)
      { s with heap := LinkCall.makeOp {} s.heap, weight := Function.update s.weight s.heap.opCount .unset } =
      some (true, { s with heap := LinkCall.makeOp {} s.heap, weight := Function.update s.weight s.heap.opCount (.tensor t) }) := by
    simp [setWeightsOf]
  simp only [createConstOp, get_bind_apply]
  rw [bind_of_eq (set_apply _ _), bind_of_eq hset]
  simp [constMade, constDesc, LinkCall.makeOp, Heap.setOp]

/-- What putting a constant into a graph leaves, and what the constant is. -/
structure ConstAdded (s : WeightHeap) (t : Tensor) (u : WeightHeap) (out : AnchorId) : Prop where
  sound : u.heap.Sound
  opCount : u.heap.opCount = s.heap.opCount + 1
  nodeCount : u.heap.nodeCount = s.heap.nodeCount + 1
  anchorCount : s.heap.anchorCount ≤ u.heap.anchorCount
  peers : u.heap.peers = s.heap.peers
  anchor : ∀ a < s.heap.anchorCount, u.heap.anchor a = s.heap.anchor a
  nodes : ∀ m < s.heap.nodeCount, u.heap.node m = s.heap.node m
  ops : ∀ o < s.heap.opCount, u.heap.op o = s.heap.op o
  weights : ∀ o < s.heap.opCount, u.weight o = s.weight o
  outs : (u.heap.node s.heap.nodeCount).outDataAnchors = [out]
  op : (u.heap.node s.heap.nodeCount).op = s.heap.opCount
  type : (u.heap.op s.heap.opCount).getType = "Const"
  outputDesc : (u.heap.op s.heap.opCount).getOutputDesc 0 = t.tensorDesc
  weight : u.weight s.heap.opCount = .tensor t
  fresh : s.heap.anchorCount ≤ out

theorem addOpNodeFront_constMade (hs : s.heap.Sound) (tid : Nat) (t : Tensor) (g : GraphId) : ∃ u out,
    WeightHeap.onHeap (ComputeGraph.addOpNodeFront g (some s.heap.opCount)) (constMade tid t s) = some (some s.heap.nodeCount, u) ∧
      ConstAdded s t u out := by
  have hsound : (constMade tid t s).heap.Sound :=
    hs.of_anchors rfl rfl (by funext m k; cases k <;> rfl) rfl
  obtain ⟨v, i, hv, hp⟩ := NewNodesAux.addOpNodeFront_puts hsound g s.heap.opCount
  have hmade : (constMade tid t s).heap.op s.heap.opCount = constDesc tid s.constCount t := update_self ..
  have hlen : (v.node s.heap.nodeCount).outDataAnchors.length = 1 := by
    refine hp.outputs.trans ?_
    rw [hmade]
    rfl
  obtain ⟨out, hout⟩ := List.length_eq_one_iff.mp hlen
  have hops : ∀ o, o < s.heap.opCount → o ≠ s.heap.opCount := fun o ho => Nat.ne_of_lt ho
  have hfresh : s.heap.anchorCount ≤ out :=
    hp.anchors.fresh s.heap.nodeCount (Nat.le_refl _) (by rw [hp.nodeCount]; exact Nat.lt_succ_self _) .outData out
      (by simp [Heap.anchorsOf, hout])
  refine ⟨{ constMade tid t s with heap := v }, out, onHeap_apply hv, hp.anchors.sound, hp.opCount, hp.nodeCount,
    hp.anchors.anchorCount,
    hp.anchors.peers, hp.anchors.anchor, hp.nodes, fun o ho => ?_, fun o ho => ?_, hout, hp.op, ?_, ?_, ?_, hfresh⟩
  · exact (hp.ops o (hops o ho)).trans (update_of_ne (hops o ho) ..)
  · exact update_of_ne (hops o ho) ..
  · obtain ⟨j, hj⟩ := hp.desc
    show (v.op s.heap.opCount).getType = "Const"
    rw [hj, hmade]
    rfl
  · obtain ⟨j, hj⟩ := hp.desc
    show (v.op s.heap.opCount).getOutputDesc 0 = t.tensorDesc
    rw [hj, hmade]
    rfl
  · exact update_self ..

/-! ## Linking -/

/-- Whether a descriptor takes another input does not depend on what the input is. -/
theorem addInputDesc_fst (op : OpDesc) (d d' : GeTensorDesc) : (op.addInputDesc d).1 = (op.addInputDesc d').1 := by
  unfold OpDesc.addInputDesc OpDesc.addInputDescNamed OpDesc.updateInputDesc OpDesc.updateInputDescAt
  split
  · split
    · rfl
    · split <;> rfl
  · rfl

/-- An input is appended and linked when the descriptor takes it. -/
theorem addLinkFrom_spec {c : NodeId} (hs : h.Sound) (hout : (h.node c).outDataAnchors = [out]) (hne : out ≠ h.anchorCount)
    (d : GeTensorDesc) : ∃ v, Node.addLinkFrom n (some c) h = some (((h.desc n).addInputDesc d).1, v) ∧
      (((h.desc n).addInputDesc d).1 = true → v.peers h.anchorCount = [out]) := by
  obtain ⟨r, hr⟩ : ∃ r, r = (h.desc n).addInputDesc ((h.desc c).getOutputDesc 0) := ⟨_, rfl⟩
  have hedit : Node.editOp n (fun op => op.addInputDesc ((h.desc c).getOutputDesc 0)) h = some
    (r.1, h.setOp (h.node n).op r.2) := by
    rw [CallAux.editOp_apply, hr]
  rw [addInputDesc_fst _ d ((h.desc c).getOutputDesc 0), ← hr]
  simp only [Node.addLinkFrom, get_bind_apply, hout]
  rw [bind_of_eq hedit]
  cases hok : r.1 with
  | false => exact ⟨_, rfl, fun hok => absurd hok Bool.false_ne_true⟩
  | true =>
    have hs' := hs.setOp (h.node n).op r.2
    have hlist : ((Node.appendAnchor n .inData (h.setOp (h.node n).op r.2)).node n).inDataAnchors.getLast? =
      some h.anchorCount := by
      have hof : (Node.appendAnchor n .inData (h.setOp (h.node n).op r.2)).anchorsOf n .inData =
          (h.setOp (h.node n).op r.2).anchorsOf n .inData ++ [h.anchorCount] :=
        (AnchorAux.appendAnchor_anchorsOf rfl).trans (if_pos ⟨rfl, rfl⟩)
      show ((Node.appendAnchor n .inData (h.setOp (h.node n).op r.2)).anchorsOf n .inData).getLast? = _
      rw [hof, List.getLast?_append]
      rfl
    have hfree : (Node.appendAnchor n .inData (h.setOp (h.node n).op r.2)).peers h.anchorCount = [] := by
      rw [AnchorAux.appendAnchor_peers hs']
      exact AnchorAux.peers_of_not_made hs' (Nat.le_refl _)
    refine ⟨Anchor.linked (Node.appendAnchor n .inData (h.setOp (h.node n).op r.2)) out h.anchorCount, ?_, fun _ => ?_⟩
    · simp only [Bool.not_true, Bool.false_eq_true, if_false, Node.linkNewInput, modify_bind_apply, get_bind_apply, hlist]
      simp [OutDataAnchor.linkTo, Anchor.link, hfree]
    · rw [LinkListsAux.linked_peers_snd hne, hfree, List.nil_append]

/-- An input that is there is linked when the descriptor takes it and it has no link. -/
theorem addLinkFromAt_spec {c : NodeId} {i : Nat} (hout : (h.node c).outDataAnchors = [out])
    (ha : (h.node n).inDataAnchors[i]? = some a) {r : Bool × OpDesc}
    (hr : r = (h.desc n).addInputDescAt i ((h.desc c).getOutputDesc 0)) :
    Node.addLinkFromAt n i (some c) h = some
      (r.1, if r.1 = true ∧ h.peers a = [] then Anchor.linked (h.setOp (h.node n).op r.2) out a
      else h.setOp (h.node n).op r.2) := by
  have hedit : Node.editOp n (fun op => op.addInputDescAt i ((h.desc c).getOutputDesc 0)) h = some
    (r.1, h.setOp (h.node n).op r.2) := by
    rw [CallAux.editOp_apply, hr]
  simp only [Node.addLinkFromAt, get_bind_apply, hout]
  rw [bind_of_eq hedit]
  cases hok : r.1 with
  | false => simp
  | true =>
    have hpeers : (h.setOp (h.node n).op r.2).peers a = h.peers a := rfl
    simp only [Bool.not_true, Bool.false_eq_true, if_false, ha, true_and]
    by_cases hfree : h.peers a = []
    · simp [OutDataAnchor.linkTo, Anchor.link, hpeers, hfree]
    · simp [OutDataAnchor.linkTo, Anchor.link, hpeers, hfree]

end NewConstsAux

/-!
## Written weights

Setting the weight of a descriptor is a write that an attribute of another type withstands. A constant more is linked to a new input.
-/

/-- The weights after one is set for each of these descriptors, in order. -/
def WeightHeap.written (s : WeightHeap) (l : List (OpId × Tensor)) : WeightHeap :=
  { s with weight := GuardedWrites.writeAll (· = WeightAttr.other) s.weight (l.map fun e => (e.1, .tensor e.2)) }

namespace WrittenWeightsAux

open Cmd OpDescUtils NewConstsAux

variable {x : WeightMarks} {tid : Nat} {s : WeightHeap} {n : NodeId}

@[simp] theorem written_heap (s : WeightHeap) (l : List (OpId × Tensor)) : (s.written l).heap = s.heap := rfl

@[simp] theorem written_nil (s : WeightHeap) : s.written [] = s := rfl

theorem written_append (s : WeightHeap) (l l' : List (OpId × Tensor)) : s.written (l ++ l') = (s.written l).written l' := by
  simp only [WeightHeap.written, List.map_append, GuardedWrites.writeAll_append]

theorem written_self {o : OpId} (hw : s.weight o ≠ .other) (t : Tensor) : (s.written [(o, t)]).weight o = .tensor t :=
  @GuardedWrites.write_self _ _ _ (· = WeightAttr.other) _ s.weight (o, WeightAttr.tensor t) hw

theorem written_of_ne {o o' : OpId} (hne : o ≠ o') (t : Tensor) : (s.written [(o, t)]).weight o' = s.weight o' :=
  @GuardedWrites.write_of_ne _ _ _ (· = WeightAttr.other) _ s.weight o' (o, WeightAttr.tensor t) hne

theorem written_of_other {o : OpId} (hw : s.weight o = .other) (l : List (OpId × Tensor)) : (s.written l).weight o = .other :=
  (@GuardedWrites.writeAll_of_fixed _ _ _ (· = WeightAttr.other) _ s.weight _ o hw).trans hw

/-- A descriptor whose weight is the same before a write has the same after it. -/
theorem written_congr {u : WeightHeap} {o p : OpId} (heq : s.weight o = u.weight o) (t : Tensor) :
    (s.written [(p, t)]).weight o = (u.written [(p, t)]).weight o := by
  by_cases hp : p = o
  · subst hp
    by_cases hother : s.weight p = .other
    · rw [written_of_other hother, written_of_other (heq ▸ hother)]
    · rw [written_self hother, written_self (heq ▸ hother)]
  · rw [written_of_ne hp, written_of_ne hp, heq]

/-- `SetWeights` of a descriptor fails when the attribute is of another type. -/
theorem setWeightsOf_eq (o : OpId) (t : Tensor) (s : WeightHeap) :
    setWeightsOf o (some t) s = some (!decide (s.weight o = .other), s.written [(o, t)]) := by
  simp only [setWeightsOf, get_bind_apply, WeightHeap.written, List.map_cons, List.map_nil, GuardedWrites.writeAll_cons,
    GuardedWrites.writeAll_nil, GuardedWrites.write]
  by_cases hw : s.weight o = .other
  · simp [hw]
  · simp [hw]

theorem setWeightsOfNodes_eq : ∀ (l : List (NodeId × Tensor)) (s : WeightHeap),
    setWeightsOfNodes l s = some ((), s.written (l.map fun e => ((s.heap.node e.1).op, e.2))) := by
  intro l
  induction l with
  | nil => exact fun _ => rfl
  | cons e l ih =>
    intro s
    have hstep : (do
        let s ← get
        setWeightsOf (s.heap.node e.1).op (some e.2) : Cmd WeightHeap Bool) s =
        some (!decide (s.weight (s.heap.node e.1).op = .other), s.written [((s.heap.node e.1).op, e.2)]) := by
      rw [get_bind_apply]
      exact setWeightsOf_eq ..
    have hrest := ih (s.written [((s.heap.node e.1).op, e.2)])
    rw [setWeightsOfNodes, Cmd.each, bind_of_eq hstep]
    exact hrest

/-! ## The vector of tensors -/

theorem setWeights_of_const (hc : Node.getType s.heap n = "Const") (t : Tensor) :
    setWeights x tid n [t] s = some (!decide (s.weight (s.heap.node n).op = .other), s.written [((s.heap.node n).op, t)]) := by
  simp only [setWeights, get_bind_apply]
  rw [congrFun (if_pos hc) s]
  exact setWeightsOf_eq ..

theorem setWeights_nil_of_const (hc : Node.getType s.heap n = "Const") : setWeights x tid n [] s = some (false, s) := by
  simp only [setWeights, get_bind_apply]
  rw [congrFun (if_pos hc) s]
  rfl

/-- Too few weights are refused. -/
theorem setWeights_of_lt {w : List Tensor} (hc : Node.getType s.heap n ≠ "Const")
    (hlen : w.length < (getConstInputs x.toInputMarks s.heap n).length) : setWeights x tid n w s = some (false, s) := by
  simp only [setWeights, get_bind_apply]
  rw [congrFun (if_neg hc) s, congrFun (if_pos hlen) s]
  rfl

/-- Weights for the constants are written, and constants made for the others. -/
theorem setWeights_of_le {w : List Tensor} (hc : Node.getType s.heap n ≠ "Const")
    (hlen : (getConstInputs x.toInputMarks s.heap n).length ≤ w.length) :
    setWeights x tid n w s = Cmd.eachOk (addConst tid n) (w.drop (getConstInputs x.toInputMarks s.heap n).length)
      (s.written (((getConstInputs x.toInputMarks s.heap n).zip w).map fun e => ((s.heap.node e.1).op, e.2))) := by
  simp only [setWeights, get_bind_apply]
  rw [congrFun (if_neg hc) s, congrFun (if_neg (Nat.not_lt.mpr hlen)) s, bind_of_eq (setWeightsOfNodes_eq _ _)]

/-- A constant more is linked to an input that was not there, or is not linked. -/
theorem addConst_spec (hs : s.heap.Sound) (hn : n < s.heap.nodeCount) (ho : (s.heap.node n).op < s.heap.opCount) (tid : Nat)
    (t : Tensor) :
    ∃ ok u, addConst tid n t s = some (ok, u) ∧
      (ok = true ↔ (s.heap.node n).ownerGraph ≠ none ∧ ((s.heap.desc n).addInputDesc {}).1 = true) ∧
      (ok = true → ∃ a, s.heap.peers a = [] ∧ u.heap.peers a ≠ []) := by
  have hmade : (constMade tid t s).heap.node n = s.heap.node n := rfl
  unfold addConst
  rw [bind_of_eq (createConstOp_eq tid t s)]
  simp only [get_bind_apply, hmade]
  cases hg : (s.heap.node n).ownerGraph with
  | none => exact ⟨false, _, rfl, by simp, nofun⟩
  | some g =>
    obtain ⟨u, out, hu, hadd⟩ := addOpNodeFront_constMade hs tid t g
    have hne : out ≠ u.heap.anchorCount := fun he => by
      -- the output of the constant was made
      have hmem : out ∈ u.heap.anchorsOf s.heap.nodeCount .outData := by
        rw [Heap.anchorsOf, hadd.outs]
        exact List.mem_singleton_self out
      have hlt := hadd.sound.laid.made s.heap.nodeCount (by rw [hadd.nodeCount]; exact Nat.lt_succ_self _) .outData out hmem
      rw [he] at hlt
      exact Nat.lt_irrefl _ hlt
    have hdesc : u.heap.desc n = s.heap.desc n := by
      rw [Heap.desc, hadd.nodes n hn, hadd.ops _ ho]
      rfl
    obtain ⟨v, hv, hlink⟩ := addLinkFrom_spec (n := n) hadd.sound hadd.outs hne {}
    rw [hdesc] at hv hlink
    dsimp only
    rw [bind_of_eq hu]
    refine ⟨_, _, onHeap_apply hv, by simp, fun hok => ⟨u.heap.anchorCount, ?_, ?_⟩⟩
    · rw [← hadd.peers]
      exact AnchorAux.peers_of_not_made hadd.sound (Nat.le_refl _)
    · show v.peers u.heap.anchorCount ≠ []
      rw [hlink hok]
      exact List.cons_ne_nil out []

end WrittenWeightsAux

end Metadef
