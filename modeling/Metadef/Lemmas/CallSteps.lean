import Metadef.Linking
import Metadef.Lemmas.AnchorSteps

/-!
# One linking call keeps a heap sound

The calls that hurt a sound heap are those that link an anchor its node has dropped, drop an anchor that has peers, or
replace an anchor as its own peer. Every other call keeps the heap sound.
-/

namespace Metadef

open List

namespace LinkCall

/-- The anchors a call is given to link. -/
def linkedAnchors : LinkCall → List (Option AnchorId)
  | inDataLinkFrom this src => [this, src]
  | inControlLinkFrom this src => [this, src]
  | outDataLinkTo this dest => [this, dest]
  | outDataLinkToControl this dest => [this, dest]
  | outControlLinkTo this dest => [this, dest]
  | outControlLinkToData this dest => [this, dest]
  | replacePeer _ _ firstPeer secondPeer => [firstPeer, secondPeer]
  | addDataEdge src dst => [src, dst]
  | addDataEdgeWithFormat src _ dst _ => [src, dst]
  | addControlEdge src dst => [src, dst]
  | addDataControlEdge src dst => [src, dst]
  | addEdge src dst => [src, dst]
  | _ => []

/-- The anchors a call takes from a node. -/
def droppedAnchors (h : Heap) : LinkCall → List AnchorId
  | clearInDataAnchor (some n) (some a) => (h.node n).inDataAnchors.filter (· = a)
  | removeInputAnchor (some n) num => (h.node n).inDataAnchors.drop num
  | removeOutputAnchor (some n) num => (h.node n).outDataAnchors.drop num
  | _ => []

/-- A call that replaces an anchor as its own peer. -/
def replacesItself : LinkCall → Bool
  | replacePeer this oldPeer _ _ => oldPeer = some this
  | _ => false

/-- A call that links only anchors their nodes hold, drops only anchors without peers, and replaces no anchor as its
own peer. -/
def Careful (h : Heap) (c : LinkCall) : Prop :=
  (∀ x ∈ c.linkedAnchors, ∀ a ∈ x, h.Held a) ∧ (∀ a ∈ c.droppedAnchors h, h.peers a = []) ∧ c.replacesItself = false

instance (h : Heap) (c : LinkCall) : Decidable (Careful h c) := by
  unfold Careful
  infer_instance

end LinkCall

namespace CallAux

open Cmd LinkAux AnchorAux

variable {h h' : Heap} {ok : Bool}

/-- The heap without objects is laid out. -/
theorem laid_empty : Heap.empty.Laid :=
  ⟨fun n hn => absurd hn (Nat.not_lt_zero n), fun n hn => absurd hn (Nat.not_lt_zero n),
    fun n hn => absurd hn (Nat.not_lt_zero n), fun n hn => absurd hn (Nat.not_lt_zero n)⟩

/-- A pointer to a node that was made. -/
theorem of_isNode {n : Option NodeId} (hn : LinkCall.isNode h n = true) : ∀ m ∈ n, m < h.nodeCount := by
  intro m hm
  rw [LinkCall.isNode, Option.mem_def.mp hm] at hn
  simpa using hn

variable {k : AnchorKind} {src dst : Option AnchorId} {node input : Option NodeId}
  {n m this : NodeId} {i : Int} {a out : AnchorId} {free : Heap → AnchorId → Bool}
  {linkTo : AnchorId → Option AnchorId → Cmd Heap Bool} {num : Nat}

/-- A pointer to an anchor of a class. -/
theorem of_isAnchorOf {a : Option AnchorId} (ha : LinkCall.isAnchorOf h k a = true) : ∀ x ∈ a, h.kind x = k := by
  intro x hx
  rw [LinkCall.isAnchorOf, Option.mem_def.mp hx] at ha
  simp only [Option.all_some, Bool.and_eq_true, decide_eq_true_eq] at ha
  exact ha.2

/-- Splitting an edge refuses, or replaces the destination by the first input of the node and its first output. -/
theorem insertNodeBetween_cases (hr : GraphUtils.insertNodeBetweenDataAnchors src dst node h = some (ok, h')) :
    (ok = false ∧ h' = h) ∨ ∃ s d n i o, src = some s ∧ dst = some d ∧ node = some n ∧
      Node.getInDataAnchor h n 0 = some i ∧ Node.getOutDataAnchor h n 0 = some o ∧
      Anchor.replacePeer s (some d) (some i) (some o) h = some (ok, h') := by
  rcases src with - | s
  · obtain ⟨rfl, rfl⟩ := of_return hr
    exact .inl ⟨rfl, rfl⟩
  rcases dst with - | d
  · obtain ⟨rfl, rfl⟩ := of_return hr
    exact .inl ⟨rfl, rfl⟩
  rcases node with - | n
  · obtain ⟨rfl, rfl⟩ : false = ok ∧ h = h' := by simpa [GraphUtils.insertNodeBetweenDataAnchors] using hr
    exact .inl ⟨rfl, rfl⟩
  simp only [GraphUtils.insertNodeBetweenDataAnchors, get_bind_apply] at hr
  cases hi : Node.getInDataAnchor h n 0 with
  | none =>
    obtain ⟨rfl, rfl⟩ : false = ok ∧ h = h' := by simpa [hi] using hr
    exact .inl ⟨rfl, rfl⟩
  | some i =>
    cases ho : Node.getOutDataAnchor h n 0 with
    | none =>
      obtain ⟨rfl, rfl⟩ : false = ok ∧ h = h' := by simpa [hi, ho] using hr
      exact .inl ⟨rfl, rfl⟩
    | some o => exact .inr ⟨s, d, n, i, o, rfl, rfl, rfl, hi, ho, by simpa only [hi, ho] using hr⟩

theorem mem_of_getInDataAnchor (ha : Node.getInDataAnchor h n i = some a) : a ∈ h.anchorsOf n .inData := by
  unfold Node.getInDataAnchor at ha
  split at ha
  · cases ha
  · exact mem_of_getElem? ha

theorem mem_of_getOutDataAnchor (ha : Node.getOutDataAnchor h n i = some a) : a ∈ h.anchorsOf n .outData := by
  unfold Node.getOutDataAnchor at ha
  split at ha
  · cases ha
  · exact mem_of_getElem? ha

/-- A linking function given held anchors keeps a heap sound. -/
theorem sound_link {this : AnchorId} {other : Option AnchorId} (hs : h.Sound)
    (hr : Anchor.link this other free h = some (ok, h')) (hthis : h.Held this) (hother : ∀ o ∈ other, h.Held o) :
    h'.Sound := by
  rcases link_cases hr with ⟨-, rfl⟩ | ⟨-, o, rfl, -, rfl⟩
  · exact hs
  · exact hs.linked hthis (hother o rfl)

/-- An edge overload refuses a null source, and else links. -/
theorem addEdgeBy_cases (hr : GraphUtils.addEdgeBy linkTo src dst h = some (ok, h')) :
    (ok = false ∧ h' = h) ∨ ∃ a, src = some a ∧ linkTo a dst h = some (ok, h') := by
  cases src with
  | none =>
    obtain ⟨rfl, rfl⟩ := of_return hr
    exact .inl ⟨rfl, rfl⟩
  | some a => exact .inr ⟨a, rfl, hr⟩

/-- Setting formats after adding an edge leaves what adding the edge did. -/
theorem addDataEdgeWithFormat_cases {srcFormat dstFormat : Format}
    (hr : GraphUtils.addDataEdgeWithFormat src srcFormat dst dstFormat h = some (ok, h')) :
    ∃ r, GraphUtils.addDataEdge src dst h = some (r, h') := by
  obtain ⟨r, t, hedge, hr⟩ := bind_eq_some.mp hr
  obtain rfl : t = h' := by
    cases r with
    | false => exact (show false = ok ∧ t = h' by simpa using hr).2
    | true => exact (show _ ∧ t = h' by simpa using hr).2
  exact ⟨r, hedge⟩

/-- An attempt at an edge: nothing was linked when it failed. -/
theorem tryEdge_cases (hlink : ∀ a d, linkTo a d = Anchor.link a d free)
    (hr : GraphUtils.tryEdge linkTo src dst h = some (ok, h')) :
    (ok = false ∧ h' = h) ∨
      (ok = true ∧ ∃ a d, src = some a ∧ dst = some d ∧ free h d = true ∧ h' = Anchor.linked h a d) := by
  cases src with
  | none =>
    obtain ⟨rfl, rfl⟩ := of_return hr
    exact .inl ⟨rfl, rfl⟩
  | some a =>
    cases dst with
    | none =>
      obtain ⟨rfl, rfl⟩ := of_return hr
      exact .inl ⟨rfl, rfl⟩
    | some d =>
      simp only [GraphUtils.tryEdge, hlink] at hr
      rcases link_cases hr with ⟨rfl, rfl⟩ | ⟨rfl, o, ho, hfree, rfl⟩
      · exact .inl ⟨rfl, rfl⟩
      · obtain rfl : d = o := Option.some.inj ho
        exact .inr ⟨rfl, a, d, rfl, rfl, hfree, rfl⟩

theorem of_cast {a : Option AnchorId} {x : AnchorId} (hx : GraphUtils.cast h k a = some x) : a = some x ∧ h.kind x = k := by
  obtain ⟨ha, hk⟩ := Option.filter_eq_some_iff.mp hx
  exact ⟨ha, of_decide_eq_true hk⟩

/-- Attempts made in turn: when each changes nothing or succeeds with a property, so do they together. -/
theorem attempt_cases {P : Heap → Prop} {c d : Cmd Heap Bool}
    (hc : ∀ {ok h'}, c h = some (ok, h') → (ok = false ∧ h' = h) ∨ (ok = true ∧ P h'))
    (hd : ∀ {ok h'}, d h = some (ok, h') → (ok = false ∧ h' = h) ∨ (ok = true ∧ P h'))
    (hr : (do if ← c then return true else d : Cmd Heap Bool) h = some (ok, h')) :
    (ok = false ∧ h' = h) ∨ (ok = true ∧ P h') := by
  obtain ⟨r, t, hrc, hrd⟩ := bind_eq_some.mp hr
  rcases hc hrc with ⟨rfl, rfl⟩ | ⟨rfl, hP⟩
  · exact hd (by simpa using hrd)
  · obtain ⟨rfl, rfl⟩ := of_return hrd
    exact .inr ⟨rfl, hP⟩

/-- A pointer cast to a class. -/
theorem cast_some (h : Heap) (k : AnchorKind) (a : AnchorId) :
    GraphUtils.cast h k (some a) = if h.kind a = k then some a else none := by
  rw [GraphUtils.cast, Option.filter_some]
  simp only [decide_eq_true_eq]

/-- A link of two anchors is made where it is free. -/
theorem link_apply (a b : AnchorId) (free : Heap → AnchorId → Bool) (s : Heap) :
    Anchor.link a (some b) free s = if free s b then some (true, Anchor.linked s a b) else some (false, s) := by
  simp only [Anchor.link, get_bind_apply]
  cases free s b <;> rfl

/-- `AddEdge` between an output and an input that exist: a data link wants the input free. -/
theorem addEdge_apply {b : AnchorId} (s : Heap) (ha : (s.kind a).isIn = false) (hb : (s.kind b).isIn = true) :
    GraphUtils.addEdge (some a) (some b) s = if s.kind a = .outData ∧ s.kind b = .inData ∧ s.peers b ≠ [] then some (false, s)
      else some (true, Anchor.linked s a b) := by
  cases hka : s.kind a with
  | inData | inControl => rw [hka] at ha; cases ha
  | outData | outControl =>
    cases hkb : s.kind b with
    | outData | outControl => rw [hkb] at hb; cases hb
    | inData | inControl =>
      simp only [GraphUtils.addEdge, get_bind_apply, cast_some, hka, hkb, reduceCtorEq, if_true, if_false, GraphUtils.tryEdge,
        pure_bind_apply, Bool.false_eq_true, OutDataAnchor.linkTo, OutDataAnchor.linkToControl, OutControlAnchor.linkTo,
        OutControlAnchor.linkToData, true_and, false_and]
      by_cases hp : s.peers b = []
      · rw [bind_of_eq ((link_apply a b _ s).trans (if_pos (by simp [hp])))]
        simp [hp]
      · first
          | rw [bind_of_eq ((link_apply a b _ s).trans (if_pos rfl))]
            rfl
          | rw [bind_of_eq ((link_apply a b _ s).trans (if_neg (by simp [hp])))]
            simp [hp]

theorem addEdge_none_left (dst : Option AnchorId) (s : Heap) : GraphUtils.addEdge none dst s = some (false, s) := by
  cases dst <;> rfl

theorem addEdge_none_right (src : Option AnchorId) (s : Heap) : GraphUtils.addEdge src none s = some (false, s) := by
  cases src with
  | none => rfl
  | some a => simp [GraphUtils.addEdge, GraphUtils.tryEdge, GraphUtils.cast]

/-- The overload on anchors of any class links an output to an input or nothing, and a data output to a data input only
when that has no peer. -/
theorem addEdge_cases (hr : GraphUtils.addEdge src dst h = some (ok, h')) :
    (ok = false ∧ h' = h) ∨ (ok = true ∧ ∃ a d, src = some a ∧ dst = some d ∧ (h.kind a).isIn = false ∧
      (h.kind d).isIn = true ∧ (h.kind a = .outData → h.kind d = .inData → h.peers d = []) ∧
      h' = Anchor.linked h a d) := by
  have attempt : ∀ {linkTo : AnchorId → Option AnchorId → Cmd Heap Bool} (free : Heap → AnchorId → Bool)
      {k l : AnchorKind}, (∀ a d, linkTo a d = Anchor.link a d free) → k.isIn = false → l.isIn = true →
      (k = .outData → l = .inData → ∀ d, free h d = true → h.peers d = []) → ∀ {ok h'},
      GraphUtils.tryEdge linkTo (GraphUtils.cast h k src) (GraphUtils.cast h l dst) h = some (ok, h') →
      (ok = false ∧ h' = h) ∨ (ok = true ∧ ∃ a d, src = some a ∧ dst = some d ∧ (h.kind a).isIn = false ∧
        (h.kind d).isIn = true ∧ (h.kind a = .outData → h.kind d = .inData → h.peers d = []) ∧
        h' = Anchor.linked h a d) := by
    intro linkTo free k l hlink hk hl hfree ok h' hr
    rcases tryEdge_cases hlink hr with hr | ⟨rfl, a, d, ha, hd, hf, rfl⟩
    · exact .inl hr
    · obtain ⟨ha, hka⟩ := of_cast ha
      obtain ⟨hd, hkd⟩ := of_cast hd
      exact .inr ⟨rfl, a, d, ha, hd, hka ▸ hk, hkd ▸ hl,
        fun h1 h2 => hfree (hka.symm.trans h1) (hkd.symm.trans h2) d hf, rfl⟩
  simp only [GraphUtils.addEdge, get_bind_apply] at hr
  refine attempt_cases (attempt (k := .outData) (l := .inData) (fun h d => (h.peers d).isEmpty)
    (fun _ _ => rfl) rfl rfl fun _ _ _ => List.isEmpty_iff.mp) (fun hr => ?_) hr
  refine attempt_cases (attempt (k := .outData) (l := .inControl) (fun _ _ => true)
    (fun _ _ => rfl) rfl rfl (by simp)) (fun hr => ?_) hr
  refine attempt_cases (attempt (k := .outControl) (l := .inControl) (fun _ _ => true)
    (fun _ _ => rfl) rfl rfl (by simp)) (fun hr => ?_) hr
  refine attempt_cases (attempt (k := .outControl) (l := .inData) (fun _ _ => true)
    (fun _ _ => rfl) rfl rfl (by simp)) (fun hr => ?_) hr
  obtain ⟨rfl, rfl⟩ := hr
  exact .inl ⟨rfl, rfl⟩

/-! ## Linking a new input -/

/-- What the functions that add inputs need of a property: writing a descriptor, a new data anchor, and feeding a free
input of a node by an output of a node keep it. -/
structure LinkInvariant (P : Heap → Prop) : Prop where
  setOp : ∀ (h : Heap) o x, P h → P (h.setOp o x)
  append : ∀ (h : Heap) n k, k.isData → P h → n < h.nodeCount → P (Node.appendAnchor n k h)
  feed : ∀ (h : Heap) m n out a, P h → m < h.nodeCount → n < h.nodeCount → out ∈ h.anchorsOf m .outData →
    a ∈ h.anchorsOf n .inData → h.peers a = [] → P (Anchor.linked h out a)

variable {P : Heap → Prop}

/-- Editing a descriptor returns the edit's status and writes its result. -/
theorem editOp_apply (n : NodeId) (f : OpDesc → Bool × OpDesc) (h : Heap) :
    Node.editOp n f h = some ((f (h.desc n)).1, h.setOp (h.node n).op (f (h.desc n)).2) := rfl

/-- Feeding an input of a node by an output, free or not, keeps the property. -/
theorem LinkInvariant.link (hP : LinkInvariant P) (hs : P h)
    (hr : OutDataAnchor.linkTo out (some a) h = some (ok, h')) (hm : m < h.nodeCount) (hn : n < h.nodeCount)
    (hout : out ∈ h.anchorsOf m .outData) (ha : a ∈ h.anchorsOf n .inData) : P h' := by
  rcases link_cases hr with ⟨-, rfl⟩ | ⟨-, o, ho, hfree, rfl⟩
  · exact hs
  · obtain rfl : a = o := Option.some.inj ho
    exact hP.feed h m n out a hs hm hn hout ha (List.isEmpty_iff.mp hfree)

/-- Appending an input and linking it to an output keeps the property. -/
theorem LinkInvariant.linkNewInput (hP : LinkInvariant P) (hs : P h)
    (hr : Node.linkNewInput this out h = some (ok, h')) (hthis : this < h.nodeCount) (hm : m < h.nodeCount)
    (hout : out ∈ h.anchorsOf m .outData) : P h' := by
  have hs' := hP.append h this .inData rfl hs hthis
  simp only [Node.linkNewInput, modify_bind_apply, get_bind_apply] at hr
  obtain ⟨r, t, hlink, hr⟩ := bind_eq_some.mp hr
  obtain ⟨-, rfl⟩ : true = ok ∧ t = h' := by simpa using hr
  cases ha : ((Node.appendAnchor this .inData h).node this).inDataAnchors.getLast? with
  | none =>
    obtain ⟨-, rfl⟩ : false = r ∧ _ = t := by simpa [OutDataAnchor.linkTo, Anchor.link, ha] using hlink
    exact hs'
  | some a =>
    rw [ha] at hlink
    refine hP.link (m := m) (n := this) hs' hlink (by rw [appendAnchor_nodeCount]; exact hm)
      (by rw [appendAnchor_nodeCount]; exact hthis) ?_ (mem_of_getLast? ha)
    rw [appendAnchor_anchorsOf rfl, if_neg (by simp)]
    exact hout

/-- Linking a new input by the one output of a node keeps the property, whatever descriptor is written on the way. -/
theorem LinkInvariant.addLinkFrom (hP : LinkInvariant P) (hs : P h)
    (hr : Node.addLinkFrom this input h = some (ok, h')) (hthis : this < h.nodeCount)
    (hinput : ∀ n ∈ input, n < h.nodeCount) : P h' := by
  cases input with
  | none =>
    obtain ⟨-, rfl⟩ : false = ok ∧ h = h' := by simpa [Node.addLinkFrom] using hr
    exact hs
  | some n =>
    simp only [Node.addLinkFrom, get_bind_apply] at hr
    rcases ho : (h.node n).outDataAnchors with - | ⟨out, - | ⟨out', l⟩⟩
    · obtain ⟨-, rfl⟩ : false = ok ∧ h = h' := by simpa [ho] using hr
      exact hs
    · simp only [ho] at hr
      rw [bind_of_eq (editOp_apply this _ h)] at hr
      split at hr
      · obtain ⟨-, rfl⟩ : false = ok ∧ _ = h' := by simpa using hr
        exact hP.setOp h _ _ hs
      · have hout : out ∈ (h.node n).outDataAnchors := by simp [ho]
        exact hP.linkNewInput (hP.setOp h _ _ hs) hr hthis (hinput n rfl) hout
    · obtain ⟨-, rfl⟩ : false = ok ∧ h = h' := by simpa [ho] using hr
      exact hs

theorem LinkInvariant.addLinkFromAt (hP : LinkInvariant P) {index : Nat}
    (hs : P h) (hr : Node.addLinkFromAt this index input h = some (ok, h')) (hthis : this < h.nodeCount)
    (hinput : ∀ n ∈ input, n < h.nodeCount) : P h' := by
  cases input with
  | none =>
    obtain ⟨-, rfl⟩ : false = ok ∧ h = h' := by simpa [Node.addLinkFromAt] using hr
    exact hs
  | some n =>
    simp only [Node.addLinkFromAt, get_bind_apply] at hr
    rcases ho : (h.node n).outDataAnchors with - | ⟨out, - | ⟨out', l⟩⟩
    · obtain ⟨-, rfl⟩ : false = ok ∧ h = h' := by simpa [ho] using hr
      exact hs
    · simp only [ho] at hr
      have hout : out ∈ (h.node n).outDataAnchors := by simp [ho]
      rw [bind_of_eq (editOp_apply this _ h)] at hr
      split at hr
      · obtain ⟨-, rfl⟩ := of_return hr
        exact hP.setOp h _ _ hs
      · cases ha : (h.node this).inDataAnchors[index]? with
        | none => exact hP.linkNewInput (hP.setOp h _ _ hs) (by simpa only [ha] using hr) hthis (hinput n rfl) hout
        | some a =>
          simp only [ha] at hr
          obtain ⟨r, t, hlink, hr⟩ := bind_eq_some.mp hr
          obtain ⟨-, rfl⟩ : true = ok ∧ t = h' := by simpa using hr
          exact hP.link (hP.setOp h _ _ hs) hlink (hinput n rfl) hthis hout (mem_of_getElem? ha)
    · obtain ⟨-, rfl⟩ : false = ok ∧ h = h' := by simpa [ho] using hr
      exact hs

theorem LinkInvariant.addLinkFromNamed (hP : LinkInvariant P) {name : String}
    (hs : P h) (hr : Node.addLinkFromNamed this name input h = some (ok, h')) (hthis : this < h.nodeCount)
    (hinput : ∀ n ∈ input, n < h.nodeCount) : P h' := by
  cases input with
  | none =>
    obtain ⟨-, rfl⟩ : false = ok ∧ h = h' := by simpa [Node.addLinkFromNamed] using hr
    exact hs
  | some n =>
    simp only [Node.addLinkFromNamed, get_bind_apply] at hr
    rcases ho : (h.node n).outDataAnchors with - | ⟨out, - | ⟨out', l⟩⟩
    · obtain ⟨-, rfl⟩ : false = ok ∧ h = h' := by simpa [ho] using hr
      exact hs
    · simp only [ho] at hr
      have hout : out ∈ (h.node n).outDataAnchors := by simp [ho]
      split at hr
      · cases ha : (h.node this).inDataAnchors[((h.desc this).getInputIndexByName name).toNat]? with
        | none =>
          obtain ⟨-, rfl⟩ : false = ok ∧ h = h' := by simpa [ha] using hr
          exact hs
        | some a =>
          simp only [ha] at hr
          obtain ⟨r, t, hlink, hr⟩ := bind_eq_some.mp hr
          rw [editOp_apply] at hr
          obtain ⟨-, rfl⟩ := of_return hr
          exact hP.setOp _ _ _ (hP.link hs hlink (hinput n rfl) hthis hout (mem_of_getElem? ha))
      · obtain ⟨r, t, hlink, hr⟩ := bind_eq_some.mp hr
        rw [editOp_apply] at hr
        obtain ⟨-, rfl⟩ : _ = ok ∧ _ = h' := by simpa using hr
        exact hP.setOp _ _ _ (hP.linkNewInput hs hlink hthis (hinput n rfl) hout)
    · obtain ⟨-, rfl⟩ : false = ok ∧ h = h' := by simpa [ho] using hr
      exact hs

/-! ## Adding and dropping anchors -/

theorem LinkInvariant.appendInputAnchor (hP : LinkInvariant P) (hs : P h)
    (hr : NodeUtils.appendInputAnchor node num h = some (ok, h')) (hnode : ∀ n ∈ node, n < h.nodeCount) : P h' := by
  cases node with
  | none =>
    obtain ⟨-, rfl⟩ := of_return hr
    exact hs
  | some n =>
    simp only [NodeUtils.appendInputAnchor, get_bind_apply] at hr
    rw [bind_of_eq (editOp_apply n _ h)] at hr
    split at hr
    · obtain ⟨-, rfl⟩ := of_return hr
      exact hP.setOp h _ _ hs
    · obtain ⟨-, rfl⟩ := of_return hr
      exact appendAnchors_invariant (fun t => hP.append t n _ rfl) _ (hP.setOp h _ _ hs) (hnode n rfl)

theorem LinkInvariant.appendOutputAnchor (hP : LinkInvariant P) (hs : P h)
    (hr : NodeUtils.appendOutputAnchor node num h = some (ok, h')) (hnode : ∀ n ∈ node, n < h.nodeCount) : P h' := by
  cases node with
  | none =>
    obtain ⟨-, rfl⟩ := of_return hr
    exact hs
  | some n =>
    simp only [NodeUtils.appendOutputAnchor, get_bind_apply] at hr
    rw [bind_of_eq (editOp_apply n _ h)] at hr
    split at hr
    · obtain ⟨-, rfl⟩ := of_return hr
      exact hP.setOp h _ _ hs
    · obtain ⟨-, rfl⟩ := of_return hr
      exact appendAnchors_invariant (fun t => hP.append t n _ rfl) _ (hP.setOp h _ _ hs) (hnode n rfl)

/-- Soundness is such a property. -/
theorem linkInvariant_sound : LinkInvariant Heap.Sound where
  setOp _ o x hs := hs.setOp o x
  append _ _ _ hk hs hn := sound_appendAnchor hs hk hn
  feed _ _ _ _ _ hs hm hn hout ha _ := hs.linked (hs.laid.held hm hout) (hs.laid.held hn ha)

theorem sound_removeInputAnchor (hs : h.Sound)
    (hr : NodeUtils.removeInputAnchor node num h = some (ok, h')) (hnode : ∀ n ∈ node, n < h.nodeCount)
    (hdrop : ∀ n ∈ node, ∀ a ∈ (h.anchorsOf n .inData).drop num, h.peers a = []) : h'.Sound := by
  cases node with
  | none =>
    obtain ⟨-, rfl⟩ := of_return hr
    exact hs
  | some n =>
    simp only [NodeUtils.removeInputAnchor, get_bind_apply] at hr
    rw [bind_of_eq (editOp_apply n _ h)] at hr
    split at hr
    · obtain ⟨-, rfl⟩ := of_return hr
      exact hs.setOp _ _
    · rw [bind_of_eq (editOp_apply n _ _)] at hr
      obtain ⟨-, rfl⟩ := of_return hr
      exact sound_take ((hs.setOp _ _).setOp _ _) rfl (hnode n rfl) num (hdrop n rfl)

theorem sound_removeOutputAnchor (hs : h.Sound)
    (hr : NodeUtils.removeOutputAnchor node num h = some (ok, h')) (hnode : ∀ n ∈ node, n < h.nodeCount)
    (hdrop : ∀ n ∈ node, ∀ a ∈ (h.anchorsOf n .outData).drop num, h.peers a = []) : h'.Sound := by
  cases node with
  | none =>
    obtain ⟨-, rfl⟩ := of_return hr
    exact hs
  | some n =>
    simp only [NodeUtils.removeOutputAnchor, get_bind_apply] at hr
    rw [bind_of_eq (editOp_apply n _ h)] at hr
    split at hr
    · obtain ⟨-, rfl⟩ := of_return hr
      exact hs.setOp _ _
    · rw [bind_of_eq (editOp_apply n _ _)] at hr
      obtain ⟨-, rfl⟩ := of_return hr
      exact sound_take ((hs.setOp _ _).setOp _ _) rfl (hnode n rfl) num (hdrop n rfl)

end CallAux

end Metadef
