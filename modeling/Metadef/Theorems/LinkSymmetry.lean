import Metadef.Lemmas.CallSteps

/-!
# Links are symmetric and never dangle

In every run whose calls link only anchors their nodes hold, drop only anchors without peers, and replace no anchor as
its own peer, the peer lists stay mutual and every peer stays held by its node.
-/

namespace Metadef

open Cmd LinkAux AnchorAux CallAux Bool

namespace LinkSymmetryAux

/-- The heap without objects is sound. -/
theorem sound_empty : Heap.empty.Sound := ⟨laid_empty, fun _ _ => rfl, fun _ _ hb => nomatch hb⟩

/-- Splitting a data edge by a node keeps a heap sound: the ends of the edge differ in class, and the node holds the
anchors the edge is moved to. -/
theorem sound_insertNodeBetween {h h' : Heap} {src dst : Option AnchorId} {node : Option NodeId} {ok : Bool}
    (hs : h.Sound) (hr : GraphUtils.insertNodeBetweenDataAnchors src dst node h = some (ok, h'))
    (hsrc : LinkCall.isAnchorOf h .outData src = true) (hdst : LinkCall.isAnchorOf h .inData dst = true)
    (hnode : ∀ n ∈ node, n < h.nodeCount) : h'.Sound := by
  rcases insertNodeBetween_cases hr with ⟨-, rfl⟩ | ⟨a, d, n, i, o, rfl, rfl, rfl, hi, ho, hr⟩
  · exact hs
  · refine sound_replacePeer hs hr ?_ ?_ ?_
    · rintro he
      have h1 := of_isAnchorOf hsrc a rfl
      have h2 := of_isAnchorOf hdst d rfl
      rw [Option.some.inj he] at h2
      exact absurd (h1.symm.trans h2) (by decide)
    · intro x hx
      obtain rfl : i = x := Option.some.inj hx
      exact hs.laid.held (hnode n rfl) (mem_of_getInDataAnchor (i := 0) hi)
    · intro x hx
      obtain rfl : o = x := Option.some.inj hx
      exact hs.laid.held (hnode n rfl) (mem_of_getOutDataAnchor (i := 0) ho)

/-- A careful call keeps a heap sound. -/
theorem sound_run {h h' : Heap} {c : LinkCall} {ok : Bool} (hs : h.Sound) (ht : c.wellTyped h = true)
    (hc : c.Careful h) (hr : c.run h = some (ok, h')) : h'.Sound := by
  obtain ⟨hlinked, hdropped, hself⟩ := hc
  cases c with
  | newOp op =>
    obtain ⟨-, rfl⟩ := of_return hr
    exact (hs.of_peers ⟨rfl, rfl, rfl, fun _ => rfl, fun _ => rfl, fun _ => rfl⟩ hs.symm hs.peersHeld)
  | newNode op =>
    obtain ⟨n, t, hmake, hr⟩ := bind_eq_some.mp hr
    obtain ⟨-, rfl⟩ := of_return hr
    exact keeps_make (P := Heap.Sound) (fun _ op g hs => sound_bare hs op g) linkInvariant_sound.append op none h n t hs hmake
  | inDataLinkFrom this other | inControlLinkFrom this other | outDataLinkTo this other | outDataLinkToControl this other
  | outControlLinkTo this other | outControlLinkToData this other =>
    exact sound_link hs hr (hlinked this (by simp [LinkCall.linkedAnchors]) this rfl)
      (hlinked other (by simp [LinkCall.linkedAnchors]))
  | unlink this peer => exact keeps_unlink this peer h ok h' hs hr
  | unlinkAll this =>
    obtain ⟨u, t, hall, hr⟩ := bind_eq_some.mp hr
    obtain ⟨-, rfl⟩ := of_return hr
    exact keeps_unlinkAll (keeps_unlink this) h u t hs hall
  | replacePeer this old first second =>
    exact sound_replacePeer hs hr (by simpa [LinkCall.replacesItself] using hself)
      (hlinked first (by simp [LinkCall.linkedAnchors])) (hlinked second (by simp [LinkCall.linkedAnchors]))
  | addDataEdge src dst | addControlEdge src dst | addDataControlEdge src dst =>
    rcases addEdgeBy_cases hr with ⟨-, rfl⟩ | ⟨a, rfl, hr⟩
    · exact hs
    · exact sound_link hs hr (hlinked (some a) (by simp [LinkCall.linkedAnchors]) a rfl)
        (hlinked dst (by simp [LinkCall.linkedAnchors]))
  | addDataEdgeWithFormat src srcFormat dst dstFormat =>
    obtain ⟨r, hedge⟩ := addDataEdgeWithFormat_cases hr
    rcases addEdgeBy_cases hedge with ⟨-, rfl⟩ | ⟨a, rfl, hlink⟩
    · exact hs
    · exact sound_link hs hlink (hlinked (some a) (by simp [LinkCall.linkedAnchors]) a rfl)
        (hlinked dst (by simp [LinkCall.linkedAnchors]))
  | addEdge src dst =>
    rcases addEdge_cases hr with ⟨-, rfl⟩ | ⟨-, a, d, rfl, rfl, -, -, -, rfl⟩
    · exact hs
    · exact hs.linked (hlinked (some a) (by simp [LinkCall.linkedAnchors]) a rfl)
        (hlinked (some d) (by simp [LinkCall.linkedAnchors]) d rfl)
  | removeEdge src dst =>
    cases src with
    | none =>
      obtain ⟨-, rfl⟩ := of_return hr
      exact hs
    | some a => exact keeps_unlink a dst h ok h' hs hr
  | insertNodeBetween src dst node =>
    simp only [LinkCall.wellTyped, and_eq_true] at ht
    exact sound_insertNodeBetween hs hr ht.1.1 ht.1.2 (of_isNode ht.2)
  | addLinkFrom this input =>
    simp only [LinkCall.wellTyped, and_eq_true] at ht
    exact linkInvariant_sound.addLinkFrom hs hr (of_isNode ht.1 this rfl) (of_isNode ht.2)
  | addLinkFromAt this index input =>
    simp only [LinkCall.wellTyped, and_eq_true] at ht
    exact linkInvariant_sound.addLinkFromAt hs hr (of_isNode ht.1 this rfl) (of_isNode ht.2)
  | addLinkFromNamed this name input =>
    simp only [LinkCall.wellTyped, and_eq_true] at ht
    exact linkInvariant_sound.addLinkFromNamed hs hr (of_isNode ht.1 this rfl) (of_isNode ht.2)
  | clearInDataAnchor node a =>
    simp only [LinkCall.wellTyped, and_eq_true] at ht
    refine sound_clearInDataAnchor hs hr (of_isNode ht.1) ?_
    rintro n rfl x rfl hx
    exact hdropped x (List.mem_filter.mpr ⟨hx, decide_eq_true rfl⟩)
  | appendInputAnchor node num => exact linkInvariant_sound.appendInputAnchor hs hr (of_isNode ht)
  | removeInputAnchor node num =>
    refine sound_removeInputAnchor hs hr (of_isNode ht) ?_
    rintro n rfl a ha
    exact hdropped a ha
  | appendOutputAnchor node num => exact linkInvariant_sound.appendOutputAnchor hs hr (of_isNode ht)
  | removeOutputAnchor node num =>
    refine sound_removeOutputAnchor hs hr (of_isNode ht) ?_
    rintro n rfl a ha
    exact hdropped a ha

end LinkSymmetryAux

open LinkSymmetryAux

/-- A run of careful calls ends in a sound heap. -/
theorem sound_runAll (calls : List LinkCall) (h : Heap) (hcareful : Run.Each LinkCall.step LinkCall.Careful calls .empty)
    (hrun : LinkCall.runAll calls = some h) : h.Sound := by
  refine Run.invariant (P := Heap.Sound) ?_ calls Heap.empty h sound_empty hcareful hrun
  intro h c h' hs hc hstep
  simp only [LinkCall.step] at hstep
  split at hstep
  · rename_i ht
    obtain ⟨⟨ok, t⟩, hr, rfl⟩ := Option.map_eq_some_iff.mp hstep
    exact sound_run hs ht hc hr
  · cases hstep

namespace LinkSymmetryWitness

/-- An operator with one input and one output. -/
def unary : OpDesc := { inputsDesc := [{}], outputsDesc := [{}] }

/-- Two nodes are made, and the output of the first is linked to the input of the second. The anchors of the nodes are
0 to 3 and 4 to 7, control anchors first. -/
def linking : List LinkCall := [.newOp unary, .newNode 0, .newNode 0, .addDataEdge (some 3) (some 6)]

/-- The heap after the linking. -/
def linkedPair : Heap := (LinkCall.runAll linking).getD .empty

end LinkSymmetryWitness

end Metadef
