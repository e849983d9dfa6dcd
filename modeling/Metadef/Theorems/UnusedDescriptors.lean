import Metadef.Lib.ListMoves
import Metadef.OpDescUtils
import Metadef.Theorems.LinkSymmetry

/-!
# Descriptors of unlinked anchors

`ClearInputDesc` and `ClearOutputDesc` of a node collect the indices of the anchors without a link and erase the descriptors there one
by one. Each index is that of the list before the first erasure.
-/

namespace Metadef

open ErasedPositions Function List

namespace Heap

variable (h : Heap) (n : NodeId)

/-- Gives a node input descriptors. -/
def withInputsDesc (descs : List GeTensorDesc) : Heap := h.setOp (h.node n).op { h.desc n with inputsDesc := descs }

/-- Gives a node output descriptors. -/
def withOutputsDesc (descs : List GeTensorDesc) : Heap := h.setOp (h.node n).op { h.desc n with outputsDesc := descs }

/-- Of as many descriptors as inputs, whatever they are, those of the inputs with a source are left, in their order. -/
def ClearsInputs : Prop :=
  ∀ descs : List GeTensorDesc, descs.length = (h.node n).inDataAnchors.length → ∃ h',
    OpDescUtils.clearInputDescOf (some n) (h.withInputsDesc n descs) = some (true, h') ∧
      (h'.desc n).inputsDesc = ((descs.zip (h.node n).inDataAnchors).filter fun e =>
        (InDataAnchor.getPeerOutAnchor h e.2).isSome).map Prod.fst

/-- Of as many descriptors as outputs, whatever they are, those of the outputs that feed an input are left, in their order. -/
def ClearsOutputs : Prop :=
  ∀ descs : List GeTensorDesc, descs.length = (h.node n).outDataAnchors.length → ∃ h',
    OpDescUtils.clearOutputDescOf (some n) (h.withOutputsDesc n descs) = some (true, h') ∧
      (h'.desc n).outputsDesc = ((descs.zip (h.node n).outDataAnchors).filter fun e =>
        !(OutDataAnchor.getPeerInDataAnchors h e.2).isEmpty).map Prod.fst

end Heap

namespace UnusedDescriptorsAux

variable {h : Heap} {n : NodeId} {p : AnchorId → Bool}

/-- The indices of the anchors of a kind are their positions, which come in order. -/
theorem indices_eq {k : AnchorKind} (hs : h.Sound) (hn : n < h.nodeCount) (hk : k.isData = true) (p : AnchorId → Bool) :
    ((h.anchorsOf n k).filter p).map (fun a => (h.anchor a).idx.toNat) = (h.anchorsOf n k).findIdxs p := by
  have hidx : ∀ i a, (h.anchorsOf n k)[i]? = some a → (h.anchor a).idx.toNat = i := fun i a hi => by
    rw [hs.laid.idx n hn k hk i a hi, Int.toNat_natCast]
  have hfrom : ∀ (l : List AnchorId) (start : Nat), (∀ i a, l[i]? = some a → (h.anchor a).idx.toNat = start + i) →
      (l.filter p).map (fun a => (h.anchor a).idx.toNat) = l.findIdxs p start := by
    intro l
    induction l with
    | nil => exact fun _ _ => rfl
    | cons a l ih =>
      intro start hl
      have hrest := ih (start + 1) fun i b hi => by rw [hl (i + 1) b hi]; omega
      rw [findIdxs_cons, ← hrest, filter_cons]
      by_cases hp : p a = true
      · rw [if_pos hp, if_pos hp, map_cons, hl 0 a rfl, Nat.add_zero]
      · rw [if_neg hp, if_neg hp]
  exact hfrom _ 0 fun i a hi => by rw [hidx i a hi, Nat.zero_add]

/-- The positions that come in order are not moved by sorting. -/
theorem mergeSort_findIdxs {l : List AnchorId} : (l.findIdxs p).mergeSort (· ≤ ·) = l.findIdxs p :=
  mergeSort_of_pairwise (List.pairwise_findIdxs.imp fun hlt => decide_eq_true (Nat.le_of_lt hlt))

/-- Descriptors differ. -/
instance : Nontrivial GeTensorDesc := ⟨⟨{}, { formatReserved := true }, by decide⟩⟩

variable (hs : h.Sound) (hn : n < h.nodeCount) (descs : List GeTensorDesc)
include hs hn

theorem clearInputDescOf_eq : ∃ h', OpDescUtils.clearInputDescOf (some n) (h.withInputsDesc n descs) = some (true, h') ∧
    (h'.desc n).inputsDesc =
      eraseEach descs ((h.node n).inDataAnchors.findIdxs fun a => (InDataAnchor.getPeerOutAnchor h a).isNone) := by
  have hpos : OpDescUtils.unlinkedInputs h n = _ := indices_eq hs hn (k := .inData) rfl _
  refine ⟨_, rfl, ?_⟩
  have hdesc : (h.withInputsDesc n descs).desc n = { h.desc n with inputsDesc := descs } := update_self ..
  refine (congrArg OpDesc.inputsDesc (update_self ..)).trans ?_
  rw [hdesc]
  show ((OpDescUtils.unlinkedInputs h n).mergeSort (· ≤ ·)).foldl (fun l i => l.eraseIdx i) descs = _
  rw [hpos, mergeSort_findIdxs]
  rfl

theorem clearOutputDescOf_eq : ∃ h', OpDescUtils.clearOutputDescOf (some n) (h.withOutputsDesc n descs) = some (true, h') ∧
    (h'.desc n).outputsDesc =
      eraseEach descs ((h.node n).outDataAnchors.findIdxs fun a => (OutDataAnchor.getPeerInDataAnchors h a).isEmpty) := by
  have hpos : OpDescUtils.unlinkedOutputs h n = _ := indices_eq hs hn (k := .outData) rfl _
  refine ⟨_, rfl, ?_⟩
  have hdesc : (h.withOutputsDesc n descs).desc n = { h.desc n with outputsDesc := descs } := update_self ..
  refine (congrArg OpDesc.outputsDesc (update_self ..)).trans ?_
  rw [hdesc]
  show ((OpDescUtils.unlinkedOutputs h n).mergeSort (· ≤ ·)).foldl (fun l i => l.eraseIdx i) descs = _
  rw [hpos, mergeSort_findIdxs]
  rfl

end UnusedDescriptorsAux

open UnusedDescriptorsAux in
/-- The descriptors of the linked anchors are left exactly when at most one anchor has no link. -/
theorem clearUnused_iff (h : Heap) (n : NodeId) (hs : h.Sound) (hn : n < h.nodeCount) :
    (h.ClearsInputs n ↔ ((h.node n).inDataAnchors.filter fun a => (InDataAnchor.getPeerOutAnchor h a).isNone).length ≤ 1) ∧
    (h.ClearsOutputs n ↔ ((h.node n).outDataAnchors.filter fun a =>
      (OutDataAnchor.getPeerInDataAnchors h a).isEmpty).length ≤ 1) := by
  constructor
  · rw [← countP_eq_length_filter, ← eraseEach_iff (α := GeTensorDesc)]
    refine forall₂_congr fun descs _ => ?_
    obtain ⟨h', hr, hleft⟩ := clearInputDescOf_eq hs hn descs
    simp only [hr, Option.some.injEq, Prod.mk.injEq, true_and, exists_eq_left', hleft, kept, Option.not_isNone]
  · rw [← countP_eq_length_filter, ← eraseEach_iff (α := GeTensorDesc)]
    refine forall₂_congr fun descs _ => ?_
    obtain ⟨h', hr, hleft⟩ := clearOutputDescOf_eq hs hn descs
    simp only [hr, Option.some.injEq, Prod.mk.injEq, true_and, exists_eq_left', hleft, kept]

namespace UnusedDescriptorsWitness

/-- A node with two inputs and two outputs, the first of each linked when asked for. -/
def calls (linked : Bool) : List LinkCall :=
  [.newOp { opDef := { name := "a", type := "Data" }, outputsDesc := [{}] }, .newNode 0,
    .newOp { opDef := { name := "n", type := "Add" }, inputsDesc := [{}, {}], outputsDesc := [{}, {}] }, .newNode 1,
    .newOp { opDef := { name := "b", type := "Relu" }, inputsDesc := [{}] }, .newNode 2] ++
    if linked then [.addDataEdge (some 2) (some 5), .addDataEdge (some 7) (some 11)] else []

def heap (linked : Bool) : Heap := (LinkCall.runAll (calls linked)).getD .empty

theorem sound_heap (linked : Bool) : (heap linked).Sound :=
  sound_runAll (calls linked) (heap linked) (by cases linked <;> decide +kernel) (by cases linked <;> rfl)

theorem clearUnused_linked : (heap true).ClearsInputs 1 ∧ (heap true).ClearsOutputs 1 := by
  obtain ⟨hin, hout⟩ := clearUnused_iff (heap true) 1 (sound_heap true) (by decide +kernel)
  exact ⟨hin.mpr (by decide +kernel), hout.mpr (by decide +kernel)⟩

open UnusedDescriptorsAux in
/-- Of two inputs without a source the second keeps its descriptor. -/
theorem clearUnused_false : ¬ ∀ (h : Heap) (n : NodeId), h.Sound → n < h.nodeCount → h.ClearsInputs n ∧ h.ClearsOutputs n := by
  intro hall
  obtain ⟨h', hr, hleft⟩ := (hall (heap false) 1 (sound_heap false) (by decide +kernel)).1 [{}, {}] (by decide +kernel)
  obtain ⟨h'', hr', hleft'⟩ := clearInputDescOf_eq (sound_heap false) (n := 1) (by decide +kernel) [{}, {}]
  obtain rfl := (Prod.mk.inj (Option.some.inj (hr.symm.trans hr'))).2
  exact absurd (hleft.symm.trans hleft') (by decide +kernel)

end UnusedDescriptorsWitness

end Metadef
