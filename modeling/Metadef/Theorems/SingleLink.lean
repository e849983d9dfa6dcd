import Metadef.Lemmas.CallSteps

/-!
# An input is linked at most once

In every run whose calls drop no anchor and link an input only when it has no peer, every input has at most one peer, and
reading the peer of an input returns it when it is a data output.
-/

namespace Metadef

open Heap Adjacency Bool List

namespace LinkCall

/-- A call that takes no anchor from a node. -/
def dropsNone : LinkCall → Bool
  | clearInDataAnchor _ _ | removeInputAnchor _ _ | removeOutputAnchor _ _ => false
  | _ => true

/-- Replacing a peer goes through: the anchor and its old peer are linked both ways. -/
def replaceable (h : Heap) (this oldPeer : AnchorId) : Bool :=
  Anchor.isLinkedWith h this (some oldPeer) && Anchor.isLinkedWith h oldPeer (some this)

/-- A call that gives no input a second peer. The functions that test for it are not mentioned: a link from a control
output does not test, and neither do the two new links of a replaced peer. -/
def LinksInputsOnce (h : Heap) : LinkCall → Prop
  | outControlLinkToData _ dest => ∀ d ∈ dest, h.peers d = []
  | addEdge src dst => ∀ s ∈ src, ∀ d ∈ dst, h.kind s = .outControl → h.kind d = .inData → h.peers d = []
  | replacePeer this oldPeer firstPeer secondPeer =>
    ∀ o ∈ oldPeer, ∀ f ∈ firstPeer, ∀ s ∈ secondPeer, replaceable h this o = true →
      (h.kind f = .inData → h.peers f = []) ∧ (h.kind s = .inData → h.peers s = [] ∧ s ≠ f)
  | insertNodeBetween src dst node =>
    ∀ s ∈ src, ∀ d ∈ dst, ∀ n ∈ node, replaceable h s d = true → ∀ a ∈ Node.getInDataAnchor h n 0, h.peers a = []
  | _ => True

instance (h : Heap) (c : LinkCall) : Decidable (LinksInputsOnce h c) := by
  cases c <;> simp only [LinksInputsOnce] <;> infer_instance

end LinkCall

namespace SingleLinkAux

open Cmd LinkAux AnchorAux CallAux

variable {h h' : Heap} {ok : Bool}

/-- Every input has at most one peer. -/
def SinglePeers (h : Heap) : Prop := ∀ a, h.kind a = .inData → (h.peers a).length ≤ 1

/-! ## Edits -/

/-- A heap of the same layout in which no peer list grew. -/
theorem single_of_le (hs : SinglePeers h) (hl : Heap.SameLayout h h') (hle : ∀ a, (h'.peers a).length ≤ (h.peers a).length) :
    SinglePeers h' :=
  fun a ha => Nat.le_trans (hle a) (hs a ((hl.kind a).symm.trans ha))

/-- Linking keeps inputs single when the inputs linked had no peer and are not one anchor. -/
theorem single_linked (hs : SinglePeers h) {a b : AnchorId} (ha : h.kind a = .inData → h.peers a = [] ∧ a ≠ b)
    (hb : h.kind b = .inData → h.peers b = []) : SinglePeers (Anchor.linked h a b) := by
  intro x hx
  rw [(sameLayout_linked h a b).kind] at hx
  rw [linked_peers, length_push, length_push]
  have hold := hs x hx
  by_cases hxa : x = a
  · subst hxa
    obtain ⟨hnil, hne⟩ := ha hx
    simp [hnil, hne]
  · by_cases hxb : x = b
    · subst hxb
      simp [hb hx, hxa]
    · simpa [hxa, hxb] using hold

variable {this : AnchorId} {other old first second : Option AnchorId}
  {free : Heap → AnchorId → Bool} {k : AnchorKind}

/-- A linking function keeps inputs single when an input it links is free. -/
theorem single_link (hs : SinglePeers h) (hr : Anchor.link this other free h = some (ok, h'))
    (hthis : ∀ o ∈ other, free h o = true → h.kind this = .inData → h.peers this = [] ∧ this ≠ o)
    (hother : ∀ o ∈ other, free h o = true → h.kind o = .inData → h.peers o = []) : SinglePeers h' := by
  rcases link_cases hr with ⟨-, rfl⟩ | ⟨-, o, rfl, hfree, rfl⟩
  · exact hs
  · exact single_linked hs (hthis o rfl hfree) (hother o rfl hfree)

/-- Unlinking keeps inputs single. -/
theorem keeps_single_unlink (this : AnchorId) (peer : Option AnchorId) : Keeps SinglePeers (Anchor.unlink this peer) := by
  intro h ok h' hs hr
  rcases unlink_cases hr with ⟨-, rfl⟩ | ⟨-, p, i, j, rfl, hp, hi, hj, rfl⟩
  · exact hs
  · refine single_of_le hs ((sameLayout_setPeers _ _ _).trans (sameLayout_setPeers _ _ _)) fun a => ?_
    simp only [setPeers_peers]
    split
    · rename_i ha
      rw [ha]
      exact (eraseIdx_sublist _ _).length_le
    · split
      · rename_i ha
        rw [ha]
        exact (eraseIdx_sublist _ _).length_le
      · exact Nat.le_refl _

/-- Replacing a peer keeps inputs single when each new end that is an input had no peer. -/
theorem single_replacePeer (hs : SinglePeers h) (hr : Anchor.replacePeer this old first second h = some (ok, h'))
    (hfree : ∀ o ∈ old, ∀ f ∈ first, ∀ s ∈ second, LinkCall.replaceable h this o = true →
      (h.kind f = .inData → h.peers f = []) ∧ (h.kind s = .inData → h.peers s = [] ∧ s ≠ f)) : SinglePeers h' := by
  rcases replacePeer_cases hr with ⟨-, rfl⟩ | ⟨-, o, f, s, i, j, rfl, rfl, rfl, hfo, hi, hj, hl, hpeers⟩
  · exact hs
  · have hrep : LinkCall.replaceable h this o = true := by
      simp only [LinkCall.replaceable, Anchor.isLinkedWith, and_eq_true]
      exact ⟨List.any_eq_true.mpr (by
          obtain ⟨hlt, he, -⟩ := List.findIdx?_eq_some_iff_getElem.mp hi
          exact ⟨_, getElem_mem hlt, he⟩), List.any_eq_true.mpr (by
          obtain ⟨hlt, he, -⟩ := List.findIdx?_eq_some_iff_getElem.mp hj
          exact ⟨_, getElem_mem hlt, he⟩)⟩
    obtain ⟨hf, hsec⟩ := hfree o rfl f rfl s rfl hrep
    intro x hx
    rw [hl.kind] at hx
    rw [hpeers, length_push, length_put, length_push, length_put]
    have hold := hs x hx
    by_cases hxf : x = f
    · subst hxf
      have hxs : x ≠ s := fun e => (hsec (e ▸ hx)).2 e.symm
      simp [hf hx, hxs]
    · by_cases hxs : x = s
      · subst hxs
        simp [(hsec hx).1, hxf]
      · simpa [hxf, hxs] using hold

/-- New anchors have no peers. -/
theorem single_appendAnchor (hs : SinglePeers h) (n : NodeId) (k : AnchorKind) : SinglePeers (Node.appendAnchor n k h) := by
  intro a ha
  rw [Heap.kind, appendAnchor_anchor] at ha
  rw [Heap.peers, appendAnchor_anchor]
  split
  · simp
  · rename_i hne
    rw [if_neg hne] at ha
    exact hs a ha

theorem single_bare (hs : SinglePeers h) (op : OpId) (g : Option GraphId) : SinglePeers (Node.bare op g h) := by
  intro a ha
  simp only [Node.bare, Heap.kind, setNode_anchor, setAnchor_anchor] at ha
  simp only [Node.bare, Heap.peers, setNode_anchor, setAnchor_anchor]
  split
  · simp
  · rename_i h1
    rw [if_neg h1] at ha
    split
    · simp
    · rename_i h2
      rw [if_neg h2] at ha
      exact hs a ha

/-! ## Calls -/

/-- What is kept: the layout, and single inputs. -/
def Single (h : Heap) : Prop := h.Laid ∧ SinglePeers h

theorem linkInvariant_single : LinkInvariant Single where
  setOp h o x hs := ⟨(sameLayout_setOp h o x).laid hs.1, hs.2⟩
  append _ n k hk hs hn := ⟨laid_appendAnchor hs.1 hk hn, single_appendAnchor hs.2 n k⟩
  feed h m n out a hs hm hn hout ha hfree := by
    refine ⟨(sameLayout_linked h out a).laid hs.1, single_linked hs.2 (fun hk => ?_) fun _ => hfree⟩
    rw [hs.1.kind m hm _ out hout] at hk
    cases hk

/-- A linking function keeps inputs single when an input it links is free. -/
theorem single_linkTo (hs : Single h) (hr : Anchor.link this other free h = some (ok, h'))
    (hfree : ∀ o ∈ other, free h o = true → (h.kind this = .inData → h.peers this = [] ∧ this ≠ o) ∧
      (h.kind o = .inData → h.peers o = [])) : Single h' := by
  refine ⟨?_, single_link hs.2 hr (fun o ho hf => (hfree o ho hf).1) fun o ho hf => (hfree o ho hf).2⟩
  rcases link_cases hr with ⟨-, rfl⟩ | ⟨-, o, -, -, rfl⟩
  · exact hs.1
  · exact (sameLayout_linked h this o).laid hs.1

/-- A linking function between classes of which neither is that of inputs keeps inputs single. -/
theorem single_linkTo_of_kinds {l : AnchorKind} (hs : Single h) (hr : Anchor.link this other free h = some (ok, h'))
    (ht : LinkCall.isAnchorOf h k (some this) = true ∧ LinkCall.isAnchorOf h l other = true) (hk : k ≠ .inData)
    (hl : l ≠ .inData) : Single h' := by
  refine single_linkTo hs hr fun o ho _ => ⟨fun h1 => ?_, fun h1 => ?_⟩
  · exact absurd ((of_isAnchorOf ht.1 this rfl).symm.trans h1) hk
  · exact absurd ((of_isAnchorOf ht.2 o ho).symm.trans h1) hl

/-- A link from a data or control output to an input without peers keeps inputs single. -/
theorem single_linkTo_input (hs : Single h) (hr : Anchor.link this other free h = some (ok, h'))
    (hthis : h.kind this = k) (hk : k ≠ .inData) (hfree : ∀ o ∈ other, free h o = true → h.peers o = []) : Single h' :=
  single_linkTo hs hr fun o ho hf => ⟨fun h1 => absurd (hthis.symm.trans h1) hk, fun _ => hfree o ho hf⟩

theorem keeps_single (this : AnchorId) (peer : Option AnchorId) : Keeps Single (Anchor.unlink this peer) := by
  intro h ok h' hs hr
  refine ⟨?_, keeps_single_unlink this peer h ok h' hs.2 hr⟩
  rcases unlink_cases hr with ⟨-, rfl⟩ | ⟨-, p, i, j, rfl, -, -, -, rfl⟩
  · exact hs.1
  · exact ((sameLayout_setPeers _ _ _).trans (sameLayout_setPeers _ _ _)).laid hs.1

/-- Replacing a peer keeps inputs single when each new end that is an input had no peer. -/
theorem single_replace (hs : Single h) (hr : Anchor.replacePeer this old first second h = some (ok, h'))
    (hfree : ∀ o ∈ old, ∀ f ∈ first, ∀ s ∈ second, LinkCall.replaceable h this o = true →
      (h.kind f = .inData → h.peers f = []) ∧ (h.kind s = .inData → h.peers s = [] ∧ s ≠ f)) : Single h' := by
  refine ⟨?_, single_replacePeer hs.2 hr hfree⟩
  rcases replacePeer_cases hr with ⟨-, rfl⟩ | ⟨-, -, -, -, -, -, -, -, -, -, -, -, hl, -⟩
  · exact hs.1
  · exact hl.laid hs.1

/-- A data edge is added to a free input only. -/
theorem single_addDataEdge {src dst : Option AnchorId} (hs : Single h) (ht : LinkCall.isAnchorOf h .outData src = true)
    (hr : GraphUtils.addDataEdge src dst h = some (ok, h')) : Single h' := by
  rcases addEdgeBy_cases hr with ⟨-, rfl⟩ | ⟨a, rfl, hr⟩
  · exact hs
  · exact single_linkTo_input hs hr (of_isAnchorOf ht a rfl) (by decide) fun _ _ hf => List.isEmpty_iff.mp hf

/-- A call that drops no anchor and links free inputs only keeps inputs single. -/
theorem single_run {c : LinkCall} (hs : Single h) (ht : c.wellTyped h = true) (hd : c.dropsNone = true)
    (hc : c.LinksInputsOnce h) (hr : c.run h = some (ok, h')) : Single h' := by
  cases c with
  | newOp op =>
    obtain ⟨-, rfl⟩ := of_return hr
    exact ⟨Heap.SameLayout.laid (h := h) ⟨rfl, rfl, rfl, fun _ => rfl, fun _ => rfl, fun _ => rfl⟩ hs.1, hs.2⟩
  | newNode op =>
    obtain ⟨n, t, hmake, hr⟩ := bind_eq_some.mp hr
    obtain ⟨-, rfl⟩ := of_return hr
    exact keeps_make (P := Single) (fun _ op g hs => ⟨laid_bare hs.1 op g, single_bare hs.2 op g⟩)
      linkInvariant_single.append op none h n t hs hmake
  | inDataLinkFrom this other =>
    simp only [LinkCall.wellTyped, and_eq_true] at ht
    have hthis := of_isAnchorOf ht.1 this rfl
    refine single_linkTo hs hr fun o ho hf => ?_
    have hother := of_isAnchorOf ht.2 o ho
    refine ⟨fun _ => ⟨List.isEmpty_iff.mp hf, fun e => ?_⟩, fun h1 => ?_⟩
    · exact absurd (hthis.symm.trans (e ▸ hother)) (by decide)
    · exact absurd (hother.symm.trans h1) (by decide)
  | inControlLinkFrom this other | outDataLinkToControl this other | outControlLinkTo this other =>
    simp only [LinkCall.wellTyped, and_eq_true] at ht
    exact single_linkTo_of_kinds hs hr ht (by decide) (by decide)
  | outDataLinkTo this other =>
    simp only [LinkCall.wellTyped, and_eq_true] at ht
    exact single_linkTo_input hs hr (of_isAnchorOf ht.1 this rfl) (by decide) fun _ _ hf => List.isEmpty_iff.mp hf
  | outControlLinkToData this other =>
    simp only [LinkCall.wellTyped, and_eq_true] at ht
    exact single_linkTo_input hs hr (of_isAnchorOf ht.1 this rfl) (by decide) fun o ho _ => hc o ho
  | unlink this peer => exact keeps_single this peer h ok h' hs hr
  | unlinkAll this =>
    obtain ⟨u, t, hall, hr⟩ := bind_eq_some.mp hr
    obtain ⟨-, rfl⟩ := of_return hr
    exact keeps_unlinkAll (keeps_single this) h u t hs hall
  | replacePeer this old first second => exact single_replace hs hr hc
  | addDataEdge src dst =>
    simp only [LinkCall.wellTyped, and_eq_true] at ht
    exact single_addDataEdge hs ht.1 hr
  | addDataEdgeWithFormat src srcFormat dst dstFormat =>
    simp only [LinkCall.wellTyped, and_eq_true] at ht
    obtain ⟨r, hedge⟩ := addDataEdgeWithFormat_cases hr
    exact single_addDataEdge hs ht.1 hedge
  | addControlEdge src dst | addDataControlEdge src dst =>
    simp only [LinkCall.wellTyped, and_eq_true] at ht
    rcases addEdgeBy_cases hr with ⟨-, rfl⟩ | ⟨a, rfl, hr⟩
    · exact hs
    · exact single_linkTo_of_kinds hs hr ht (by decide) (by decide)
  | addEdge src dst =>
    rcases addEdge_cases hr with ⟨-, rfl⟩ | ⟨-, a, d, rfl, rfl, ha, hd, hfree, rfl⟩
    · exact hs
    · refine ⟨(sameLayout_linked h a d).laid hs.1, single_linked hs.2 (fun hk => ?_) fun hk => ?_⟩
      · rw [hk] at ha
        cases ha
      · cases hka : h.kind a with
        | outData => exact hfree hka hk
        | outControl => exact hc a rfl d rfl hka hk
        | inData | inControl => rw [hka] at ha; cases ha
  | removeEdge src dst =>
    cases src with
    | none =>
      obtain ⟨-, rfl⟩ := of_return hr
      exact hs
    | some a => exact keeps_single a dst h ok h' hs hr
  | insertNodeBetween src dst node =>
    simp only [LinkCall.wellTyped, and_eq_true] at ht
    rcases insertNodeBetween_cases hr with ⟨-, rfl⟩ | ⟨s, d, n, i, o, rfl, rfl, rfl, hi, ho, hr⟩
    · exact hs
    · refine single_replace hs hr ?_
      simp only [Option.mem_def, Option.some.injEq, forall_eq']
      refine fun hrep => ⟨fun _ => hc s rfl d rfl n rfl hrep i hi, fun hk => ?_⟩
      rw [hs.1.kind n (of_isNode ht.2 n rfl) _ _ (mem_of_getOutDataAnchor (i := 0) ho)] at hk
      cases hk
  | addLinkFrom this input =>
    simp only [LinkCall.wellTyped, and_eq_true] at ht
    exact linkInvariant_single.addLinkFrom hs hr (of_isNode ht.1 this rfl) (of_isNode ht.2)
  | addLinkFromAt this index input =>
    simp only [LinkCall.wellTyped, and_eq_true] at ht
    exact linkInvariant_single.addLinkFromAt hs hr (of_isNode ht.1 this rfl) (of_isNode ht.2)
  | addLinkFromNamed this name input =>
    simp only [LinkCall.wellTyped, and_eq_true] at ht
    exact linkInvariant_single.addLinkFromNamed hs hr (of_isNode ht.1 this rfl) (of_isNode ht.2)
  | appendInputAnchor node num => exact linkInvariant_single.appendInputAnchor hs hr (of_isNode ht)
  | appendOutputAnchor node num => exact linkInvariant_single.appendOutputAnchor hs hr (of_isNode ht)
  | clearInDataAnchor _ _ | removeInputAnchor _ _ | removeOutputAnchor _ _ => cases hd

end SingleLinkAux

open SingleLinkAux CallAux

/-- In every run of calls that drop no anchor and link free inputs only, every input has at most one peer, and its peer
is read when it is a data output. -/
theorem input_linked_once (calls : List LinkCall) (h : Heap)
    (honce : Run.Each LinkCall.step (fun h c => c.dropsNone = true ∧ c.LinksInputsOnce h) calls .empty)
    (hrun : LinkCall.runAll calls = some h) (a : AnchorId) (ha : h.kind a = .inData) :
    (h.peers a).length ≤ 1 ∧ ∀ b ∈ h.peers a, h.kind b = .outData → InDataAnchor.getPeerOutAnchor h a = some b := by
  have hs : Single h := by
    refine Run.invariant (P := Single) ?_ calls Heap.empty h ⟨laid_empty, fun _ _ => Nat.zero_le 1⟩ honce hrun
    intro h c h' hs hc hstep
    simp only [LinkCall.step] at hstep
    split at hstep
    · rename_i ht
      obtain ⟨⟨ok, t⟩, hr, rfl⟩ := Option.map_eq_some_iff.mp hstep
      exact single_run hs ht hc.1 hc.2 hr
    · cases hstep
  refine ⟨hs.2 a ha, fun b hb hk => ?_⟩
  have hone := hs.2 a ha
  match hp : h.peers a with
  | [] => rw [hp] at hb; cases hb
  | [c] =>
    obtain rfl : b = c := by simpa [hp] using hb
    simp [InDataAnchor.getPeerOutAnchor, hp, hk]
  | c :: d :: l => rw [hp] at hone; simp at hone

namespace SingleLinkWitness

/-- An operator with one input and one output. -/
def unary : OpDesc := { inputsDesc := [{}], outputsDesc := [{}] }

/-- Two nodes are made, and the output of the first is linked to the input of the second. The anchors of the nodes are
0 to 3 and 4 to 7, control anchors first. -/
def linking : List LinkCall := [.newOp unary, .newNode 0, .newNode 0, .outDataLinkTo 3 (some 6)]

/-- The heap after the linking. -/
def linkedPair : Heap := (LinkCall.runAll linking).getD .empty

theorem input_linked_once_linking :
    (linkedPair.peers 6).length ≤ 1 ∧
      ∀ b ∈ linkedPair.peers 6, linkedPair.kind b = .outData → InDataAnchor.getPeerOutAnchor linkedPair 6 = some b :=
  input_linked_once linking linkedPair (by decide) rfl 6 (by decide)

/-- A control output is linked to an input that a data output feeds. -/
theorem input_linked_once_false :
    ¬ ∀ (calls : List LinkCall) (h : Heap), (∀ c ∈ calls, c.dropsNone = true) → LinkCall.runAll calls = some h →
      ∀ a, h.kind a = .inData → (h.peers a).length ≤ 1 := by
  intro hall
  exact absurd (hall (linking ++ [.outControlLinkToData 1 (some 6)]) _ (by decide) rfl 6 (by decide)) (by decide)

end SingleLinkWitness

end Metadef
