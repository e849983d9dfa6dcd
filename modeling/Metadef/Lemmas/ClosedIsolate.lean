import Metadef.Lemmas.ClosedLinks

/-!
# Isolating a node of a graph

The steps of `ComputeGraph::IsolateNode` stay beside the node. When they succeed at a node that is not linked to itself, whose
inputs have one data source at most and whose control output controls no data input, the node is left without links.
-/

namespace Metadef

open List

open Cmd Heap LinkAux IsolateAux ComputeGraph

namespace ClosedAux

variable {h h' : Heap} {N : List NodeId} {n : NodeId} {c : Prop}

/-! ## Out nodes -/

/-- The nodes an output of a node is linked to. -/
theorem mem_getOutAllNodes (hs : h.Sound) (hd : h.Directed) (hn : n < h.nodeCount) {v : NodeId} :
    v ∈ Node.getOutAllNodes h n ↔ ∃ a ∈ h.outAnchors n, ∃ b ∈ h.peers a, h.owner b = v := by
  have hin : ∀ a ∈ h.outAnchors n, ∀ b ∈ h.peers a, (h.kind b).isIn = true := by
    intro a ha b hb
    rw [hd a b hb, ((mem_outAnchors hs.laid hn).mp ha).2.2]
    rfl
  unfold Node.getOutAllNodes outAnchors at *
  simp only [mem_append, List.mem_map, mem_flatMap, OutDataAnchor.getPeerInDataAnchors,
    OutDataAnchor.getPeerInControlAnchors, Anchor.getPeersOf, mem_filter, decide_eq_true_eq, anchorsOf,
    mem_singleton] at hin ⊢
  constructor
  · rintro (⟨b, ⟨a, ha, hb | hb⟩, rfl⟩ | ⟨b, hb, rfl⟩)
    · exact ⟨a, .inl ha, b, hb.1, rfl⟩
    · exact ⟨a, .inl ha, b, hb.1, rfl⟩
    · exact ⟨_, .inr rfl, b, hb, rfl⟩
  · rintro ⟨a, ha | rfl, b, hb, rfl⟩
    · have hk := hin a (.inl ha) b hb
      refine .inl ⟨b, ⟨a, ha, ?_⟩, rfl⟩
      cases hkind : h.kind b with
      | inData => exact .inl ⟨hb, rfl⟩
      | inControl => exact .inr ⟨hb, rfl⟩
      | outData | outControl => rw [hkind] at hk; cases hk
    · exact .inr ⟨b, hb, rfl⟩

/-- A node that is none of its out nodes has no link to itself. -/
theorem noLoop_of_not_mem (hs : h.Sound) (hd : h.Directed) (hn : n < h.nodeCount) (hnot : n ∉ Node.getOutAllNodes h n) :
    NoLoop h n := by
  have hout : ∀ a b, h.owner a = n → b ∈ h.peers a → (h.kind a).isIn = false → h.owner b ≠ n := by
    intro a b ha hb hk hbn
    exact hnot ((mem_getOutAllNodes hs hd hn).mpr
      ⟨a, (mem_outAnchors hs.laid hn).mpr ⟨hs.symm.held hs.peersHeld hb, ha, hk⟩, b, hb, hbn⟩)
  intro a b ha hb hbn
  cases hk : (h.kind a).isIn with
  | false => exact hout a b ha hb hk hbn
  | true =>
    have hkb : (h.kind b).isIn = false := by
      rw [hd a b hb, hk]
      rfl
    exact hout b a hbn (hs.symm.mem hb) hkb ha

/-! ## Steps -/

variable {k : AnchorKind} {p a : AnchorId} {nodes : List NodeId} {f : AnchorId → Cmd Heap Bool}

/-- The outputs of a made node. -/
theorem own_output (hi : Inside h N) (hn : n < h.nodeCount) (hk : k.isIn = false) {o : AnchorId}
    (ho : o ∈ h.anchorsOf n k) : h.owner o = n ∧ (h.kind o).isIn = false :=
  ⟨hi.sound.laid.owner n hn k o ho, by rw [hi.sound.laid.kind n hn k o ho, hk]⟩

theorem stays_takeOverData (hn : n < h.nodeCount) (hloop : c → NoLoop h n) {s : AnchorId} (hs : OutBeside c n N h s) :
    Stays c n N h (takeOverData n s) := by
  refine Stays.get fun m hw => ?_
  have hloop' := hw.noLoop hloop
  have hn' : n < m.nodeCount := hw.layout.nodeCount ▸ hn
  have hs' := hs.of_layout hw.layout
  obtain ⟨hctrl, hkctrl⟩ := hs'.1.control hw.inside (k := .outControl) mem_cons_self
  refine Stays.andThen (Stays.eachOk fun o ho => ?_) ?_
  · obtain ⟨hon, hko⟩ := own_output hw.inside hn' (k := .outData) rfl ho
    exact stays_moveOutData hs' hon hko hloop'
  · obtain ⟨hon, hko⟩ := own_output hw.inside hn' (k := .outControl) rfl mem_cons_self
    exact stays_movePeersOf links_addControlEdge .inControl ⟨hctrl, by rw [hkctrl]; rfl⟩ hon hko hloop'

theorem stays_takeOverControl (hn : n < h.nodeCount) (hloop : c → NoLoop h n) (hp : OutBeside c n N h p) :
    Stays c n N h (takeOverControl n p) := by
  refine Stays.get fun m hw => ?_
  have hloop' := hw.noLoop hloop
  have hn' : n < m.nodeCount := hw.layout.nodeCount ▸ hn
  have hp' := hp.of_layout hw.layout
  refine Stays.andThen (Stays.eachOk fun o ho => ?_) ?_
  · obtain ⟨hon, hko⟩ := own_output hw.inside hn' (k := .outData) rfl ho
    exact stays_movePeersOf links_addControlEdge .inControl hp' hon hko hloop'
  · obtain ⟨hon, hko⟩ := own_output hw.inside hn' (k := .outControl) rfl mem_cons_self
    exact stays_movePeersOf links_addControlEdge .inControl hp' hon hko hloop'

/-- Nodes whose control inputs take links beside the node. -/
def NextBeside (c : Prop) (n : NodeId) (N : List NodeId) (h : Heap) (nodes : List NodeId) : Prop :=
  ∀ v ∈ nodes, Beside c n N h (h.node v).inControlAnchor ∧ h.kind (h.node v).inControlAnchor = .inControl

theorem NextBeside.of_layout (hl : SameLayout h h') (hnext : NextBeside c n N h nodes) : NextBeside c n N h' nodes := by
  intro v hv
  obtain ⟨hb, hk⟩ := hnext v hv
  rw [hl.node, hl.kind]
  exact ⟨hb.of_layout hl, hk⟩

theorem stays_controlNodes (hp : OutBeside c n N h p) (hnext : NextBeside c n N h nodes) :
    Stays c n N h (controlNodes p nodes) := by
  refine Stays.get fun m hw => Stays.eachOk fun v hv => ?_
  obtain ⟨hb, hk⟩ := hnext.of_layout hw.layout v hv
  have hp' := hp.of_layout hw.layout
  obtain ⟨free, hfree⟩ := links_addDataControlEdge p (m.node v).inControlAnchor
  rw [hfree]
  exact stays_link hp'.1 hb hp'.2 (by rw [hk]; rfl) free

theorem stays_isolateInData (hi : Inside h N) (hn : n < h.nodeCount) (hloop : c → NoLoop h n)
    (ha : a ∈ h.anchorsOf n .inData) : Stays c n N h (isolateInData n a) := by
  refine Stays.get fun m hw => ?_
  cases hp : InDataAnchor.getPeerOutAnchor m a with
  | none => exact Keeps.pure true
  | some s =>
    obtain ⟨hmem, hks⟩ := of_getPeerOutAnchor hp
    have howner : m.owner a = n := (hw.layout.owner a).trans (hi.sound.laid.owner n hn .inData a ha)
    have hs : Beside c n N m s := beside_peer hw.inside (hw.noLoop hloop) howner hmem
    refine (stays_unlink s (some a)).andThen (Keeps.ite (fun _ => Keeps.pure true) fun _ => ?_)
    exact stays_takeOverData (hw.layout.nodeCount ▸ hn) (hw.noLoop hloop) ⟨hs, by rw [hks]; rfl⟩

theorem stays_isolateInControl (hn : n < h.nodeCount) (hloop : c → NoLoop h n) (hp : OutBeside c n N h p) :
    Stays c n N h (isolateInControl n p) :=
  Stays.get fun _ hw => (stays_unlink p (some _)).andThen
    (stays_takeOverControl (hw.layout.nodeCount ▸ hn) (hw.noLoop hloop) (hp.of_layout hw.layout))

theorem stays_isolateOutPeerData (hp : OutBeside c n N h p) {nextNodes : List NodeId}
    (hnext : NextBeside c n N h nextNodes) : Stays c n N h (isolateOutPeerData n nextNodes p) :=
  Stays.get fun _ hw => (stays_unlink p (some _)).andThen
    (stays_controlNodes (hp.of_layout hw.layout) (hnext.of_layout hw.layout))

theorem stays_removeExtraOutEdge : Stays c n N h (removeExtraOutEdge n) :=
  Stays.get fun _ _ => Stays.andThen (Stays.eachOk fun o _ => stays_removeOutData o) (stays_removePeersOf .inControl _)

/-- The nodes behind the node take control links beside it. -/
theorem nextBeside (hi : Inside h N) (hn : n < h.nodeCount) (hloop : c → NoLoop h n) :
    NextBeside c n N h (Node.getOutAllNodes h n) := by
  intro v hv
  obtain ⟨a, ha, b, hb, rfl⟩ := (mem_getOutAllNodes hi.sound hi.directed hn).mp hv
  have howner : h.owner a = n := ((mem_outAnchors hi.sound.laid hn).mp ha).2.1
  exact (beside_peer hi hloop howner hb).control hi (k := .inControl) mem_cons_self

/-- The peers of the control input, by class, are outputs beside the node. -/
theorem outBeside_control (hi : Inside h N) (hn : n < h.nodeCount) (hloop : c → NoLoop h n)
    (hk : k.isIn = false) (hp : p ∈ Anchor.getPeersOf h (h.node n).inControlAnchor k) :
    OutBeside c n N h p := by
  obtain ⟨hmem, hkind⟩ := mem_filter.mp hp
  have howner : h.owner (h.node n).inControlAnchor = n := hi.sound.laid.owner n hn .inControl _ mem_cons_self
  refine ⟨beside_peer hi hloop howner hmem, ?_⟩
  rw [of_decide_eq_true hkind, hk]

theorem stays_isolateNode (hn : n < h.nodeCount) (hloop : c → NoLoop h n) : Stays c n N h (ComputeGraph.isolateNode n) := by
  refine Stays.get fun m hw => ?_
  have hn' : n < m.nodeCount := hw.layout.nodeCount ▸ hn
  have hloop' := hw.noLoop hloop
  refine Stays.andThen (Stays.eachOk fun a ha => stays_isolateInData hw.inside hn' hloop' ha) ?_
  refine Stays.get fun t ht => ?_
  have hn'' : n < t.nodeCount := ht.layout.nodeCount ▸ hn'
  have hloop'' := ht.noLoop hloop'
  refine Stays.andThen (Stays.eachOk fun p hp =>
    stays_isolateInControl hn'' hloop'' (outBeside_control ht.inside hn'' hloop'' rfl hp)) ?_
  refine Stays.get fun u hu => ?_
  have hn''' : n < u.nodeCount := hu.layout.nodeCount ▸ hn''
  refine Stays.andThen (Stays.eachOk fun p hp => ?_) stays_removeExtraOutEdge
  exact stays_isolateOutPeerData (outBeside_control hu.inside hn''' (hu.noLoop hloop'') rfl hp)
    ((nextBeside hw.inside hn' hloop').of_layout (ht.layout.trans hu.layout))

/-! ## What is left -/

/-- What a loop over the peers of a class of an anchor takes off one by one, is off in the end. -/
theorem emptied_of_each (l : List AnchorId) (hstep : ∀ b ∈ l, ∀ m m', Within True n N h m → f b m = some (true, m') →
      Within True n N h m' ∧ (m'.peers a).Sublist ((m.peers a).erase b)) :
    ∀ m, Within True n N h m → (∀ x, h.kind x = k → (m.peers a).count x ≤ l.count x) →
      Cmd.eachOk f l m = some (true, h') → Within True n N h h' ∧ Anchor.getPeersOf h' a k = [] := by
  induction l with
  | nil =>
    intro m hw hcount hr
    obtain rfl : m = h' := by simpa [Cmd.eachOk] using hr
    refine ⟨hw, filter_eq_nil_iff.mpr fun x hx hk => ?_⟩
    have hzero := hcount x ((hw.layout.kind x).symm.trans (of_decide_eq_true hk))
    rw [count_nil, Nat.le_zero, count_eq_zero] at hzero
    exact hzero hx
  | cons b l ih =>
    intro m hw hcount hr
    obtain ⟨ok, t, ht, hrest⟩ := bind_eq_some.mp hr
    cases ok with
    | false => simp at hrest
    | true =>
      obtain ⟨hwt, hsub⟩ := hstep b mem_cons_self m t hw ht
      refine ih (fun b hb => hstep b (mem_cons_of_mem _ hb)) t hwt (fun x hx => ?_) (by simpa using hrest)
      have hle := hcount x hx
      have herase := hsub.count_le x
      rw [count_cons] at hle
      rw [count_erase] at herase
      omega

/-- An unlinking of an anchor of the node, and steps beside the node after it. -/
theorem unlinkThen_spec (hi : Inside h N) {y : Cmd Heap Bool}
    (hy : ∀ m, Within True n N h m → Stays True n N m y) (ha : h.owner a = n)
    (hr : (Anchor.unlink p (some a) >>= fun ok => if !ok then pure false else y) h = some (true, h')) :
    Within True n N h h' ∧ (h'.peers a).Sublist ((h.peers a).erase p) := by
  obtain ⟨ok, m, hm, hrest⟩ := bind_eq_some.mp hr
  cases ok with
  | false => simp at hrest
  | true =>
    have hwm : Within True n N h m := stays_unlink p (some a) h true m (.refl hi) hm
    obtain ⟨-, -, -, hpeers⟩ := unlink_true hi.sound hm
    have hw : Within True n N m h' := hy m hwm m true h' (.refl hwm.inside) hrest
    refine ⟨hwm.trans hw, ?_⟩
    have hsub := hw.shrink trivial a ((hwm.layout.owner a).trans ha)
    rwa [hpeers, if_pos rfl] at hsub

/-- Removing the links of an anchor of the node to a class of peers leaves none. -/
theorem removePeersOf_spec (hi : Inside h N) (n : NodeId)
    (hr : removePeersOf k a h = some (true, h')) : Within True n N h h' ∧ Anchor.getPeersOf h' a k = [] := by
  rw [removePeersOf, get_bind_apply] at hr
  refine emptied_of_each _ (fun b _ m m' hw hb => ?_) h (.refl hi) (fun x hx => ?_) hr
  · have hw' : Within True n N h m' := stays_unlink a (some b) m true m' hw hb
    obtain ⟨hne, -, -, hpeers⟩ := unlink_true hw.inside.sound hb
    refine ⟨hw', ?_⟩
    rw [hpeers, if_neg (Ne.symm hne), if_pos rfl]
  · rw [Anchor.getPeersOf, count_filter (by simpa using hx)]

/-- What is gone stays gone beside the node. -/
theorem Within.getPeersOf_nil (hw : Within True n N h h') (ha : h.owner a = n)
    (hnone : Anchor.getPeersOf h a k = []) : Anchor.getPeersOf h' a k = [] := by
  refine filter_eq_nil_iff.mpr fun x hx hk => ?_
  rw [hw.layout.kind] at hk
  exact filter_eq_nil_iff.mp hnone x ((hw.shrink trivial a ha).subset hx) hk

theorem Within.peers_nil (hw : Within True n N h h') (ha : h.owner a = n) (hnone : h.peers a = []) : h'.peers a = [] := by
  have hsub := hw.shrink trivial a ha
  rw [hnone] at hsub
  exact sublist_nil.mp hsub

/-- An anchor without peers of two classes has none, when its peers are of these classes. -/
theorem peers_nil_of_classes {l : AnchorKind} (hkinds : ∀ b ∈ h.peers a, h.kind b = k ∨ h.kind b = l)
    (hnone : Anchor.getPeersOf h a k = []) (hnone' : Anchor.getPeersOf h a l = []) : h.peers a = [] := by
  refine eq_nil_iff_forall_not_mem.mpr fun b hb => ?_
  rcases hkinds b hb with hk | hk
  · exact filter_eq_nil_iff.mp hnone b hb (by simpa using hk)
  · exact filter_eq_nil_iff.mp hnone' b hb (by simpa using hk)

/-- Removing the links of a data output leaves it without peers. -/
theorem removeOutData_spec (hi : Inside h N) (ha : h.owner a = n) (hka : (h.kind a).isIn = false)
    (hr : removeOutData a h = some (true, h')) : Within True n N h h' ∧ h'.peers a = [] := by
  obtain ⟨ok, m, hm, hrest⟩ := bind_eq_some.mp hr
  cases ok with
  | false => simp at hrest
  | true =>
    obtain ⟨hwm, hdata⟩ := removePeersOf_spec hi n hm
    have ham : m.owner a = n := (hwm.layout.owner a).trans ha
    obtain ⟨hw, hcontrol⟩ := removePeersOf_spec hwm.inside n hrest
    refine ⟨hwm.trans hw, peers_nil_of_classes (fun b hb => ?_) (hw.getPeersOf_nil ham hdata) hcontrol⟩
    have hin : (h'.kind b).isIn = true := by
      rw [hw.inside.directed a b hb, hw.layout.kind, hwm.layout.kind, hka]
      rfl
    cases hk : h'.kind b with
    | inData => exact .inl rfl
    | inControl => exact .inr rfl
    | outData | outControl => rw [hk] at hin; cases hin

/-- An input with one peer at most, which is a data output. -/
def FedOnce (h : Heap) (a : AnchorId) : Prop := (h.peers a).length ≤ 1 ∧ ∀ b ∈ h.peers a, h.kind b = .outData

instance (h : Heap) (a : AnchorId) : Decidable (FedOnce h a) := inferInstanceAs (Decidable (_ ∧ _))

theorem FedOnce.of_sublist (hf : FedOnce h a) (hl : SameLayout h h') (hsub : (h'.peers a).Sublist (h.peers a)) : FedOnce h' a :=
  ⟨hsub.length_le.trans hf.1, fun b hb => (hl.kind b).trans (hf.2 b (hsub.subset hb))⟩

/-- The round over an input that is fed once leaves it without peers. -/
theorem isolateInData_spec (hi : Inside h N) (hn : n < h.nodeCount) (hloop : NoLoop h n)
    (ha : a ∈ h.anchorsOf n .inData) (hf : FedOnce h a) (hr : isolateInData n a h = some (true, h')) :
    Within True n N h h' ∧ h'.peers a = [] := by
  have howner : h.owner a = n := hi.sound.laid.owner n hn .inData a ha
  rw [isolateInData, get_bind_apply] at hr
  cases hp : h.peers a with
  | nil =>
    obtain rfl : h = h' := by simpa [InDataAnchor.getPeerOutAnchor, hp] using hr
    exact ⟨.refl hi, hp⟩
  | cons s l =>
    obtain rfl : l = [] := by
      have hlen := hf.1
      rw [hp] at hlen
      exact length_eq_zero_iff.mp (Nat.le_zero.mp (Nat.le_of_succ_le_succ hlen))
    have hks : h.kind s = .outData := hf.2 s (hp ▸ mem_cons_self)
    have hs : Beside True n N h s := beside_peer hi (fun _ => hloop) howner (hp ▸ mem_cons_self)
    have hget : InDataAnchor.getPeerOutAnchor h a = some s := by simp [InDataAnchor.getPeerOutAnchor, hp, hks]
    simp only [hget] at hr
    have hrest : ∀ m, Within True n N h m →
        Stays True n N m (if Node.isConst h (h.owner s) then pure true else takeOverData n s) := by
      intro m hw
      refine Keeps.ite (fun _ => Keeps.pure true) fun _ => ?_
      exact stays_takeOverData (hw.layout.nodeCount ▸ hn) (hw.noLoop fun _ => hloop)
        (OutBeside.of_layout hw.layout ⟨hs, by rw [hks]; rfl⟩)
    obtain ⟨hw, hsub⟩ := unlinkThen_spec hi hrest howner hr
    refine ⟨hw, ?_⟩
    rw [hp, erase_cons_head] at hsub
    exact sublist_nil.mp hsub

/-- A loop over anchors of the node, each round of which leaves its anchor without peers, leaves all of them without. -/
theorem emptied_in_turn (hi : Inside h N) {l : List AnchorId} (hl : ∀ a ∈ l, h.owner a = n)
    (hstep : ∀ a ∈ l, ∀ m m', Within True n N h m → f a m = some (true, m') → Within True n N m m' ∧ m'.peers a = [])
    (hr : Cmd.eachOk f l h = some (true, h')) : Within True n N h h' ∧ ∀ a ∈ l, h'.peers a = [] := by
  let I : List AnchorId → Heap → Prop := fun done m => Within True n N h m ∧ ∀ a ∈ done, h.owner a = n ∧ m.peers a = []
  have hstart : I [] h := ⟨.refl hi, fun a ha => nomatch ha⟩
  have hall : I ([] ++ l) h' := by
    refine eachOk_of_true ?_ hstart hr
    rintro done a m m' ha ⟨hw, hnone⟩ hround
    obtain ⟨hw', hempty⟩ := hstep a ha m m' hw hround
    refine ⟨hw.trans hw', fun b hb => ?_⟩
    rcases mem_append.mp hb with hb | hb
    · obtain ⟨hbo, hbnone⟩ := hnone b hb
      exact ⟨hbo, hw'.peers_nil ((hw.layout.owner b).trans hbo) hbnone⟩
    · obtain rfl := mem_singleton.mp hb
      exact ⟨hl b ha, hempty⟩
  exact ⟨hall.1, fun a ha => (hall.2 a ha).2⟩

/-- The loop over the inputs. -/
theorem isolateInDatas_spec (hi : Inside h N) (hn : n < h.nodeCount) (hloop : NoLoop h n)
    (hf : ∀ a ∈ h.anchorsOf n .inData, FedOnce h a)
    (hr : Cmd.eachOk (isolateInData n) (h.anchorsOf n .inData) h = some (true, h')) :
    Within True n N h h' ∧ ∀ a ∈ h.anchorsOf n .inData, h'.peers a = [] := by
  have howner : ∀ a ∈ h.anchorsOf n .inData, h.owner a = n := hi.sound.laid.owner n hn .inData
  refine emptied_in_turn hi howner (fun a ha m m' hw hround => ?_) hr
  exact isolateInData_spec hw.inside (hw.layout.nodeCount ▸ hn) (hw.noLoop (fun _ => hloop) trivial)
    (hw.layout.anchorsOf n .inData ▸ ha) ((hf a ha).of_sublist hw.layout (hw.shrink trivial a (howner a ha))) hround

/-- A loop over the peers of a class of the control input, each round of which takes the peer off first. -/
theorem isolateControls_spec (hi : Inside h N) (hn : n < h.nodeCount) (y : AnchorId → Cmd Heap Bool)
    (hf : ∀ p m, f p m = (Anchor.unlink p (some (m.node n).inControlAnchor) >>= fun ok => if !ok then pure false else y p) m)
    (hy : ∀ p ∈ Anchor.getPeersOf h (h.node n).inControlAnchor k, ∀ m, Within True n N h m → Stays True n N m (y p))
    (hr : Cmd.eachOk f (Anchor.getPeersOf h (h.node n).inControlAnchor k) h = some (true, h')) :
    Within True n N h h' ∧ Anchor.getPeersOf h' (h.node n).inControlAnchor k = [] := by
  have howner : h.owner (h.node n).inControlAnchor = n := hi.sound.laid.owner n hn .inControl _ mem_cons_self
  refine emptied_of_each _ (fun p hp m m' hw hstep => ?_) h (.refl hi) (fun x hx => ?_) hr
  · rw [hf, hw.layout.node] at hstep
    obtain ⟨hw', hsub⟩ := unlinkThen_spec hw.inside (fun t ht => hy p hp t (hw.trans ht))
      ((hw.layout.owner _).trans howner) hstep
    exact ⟨hw.trans hw', hsub⟩
  · rw [Anchor.getPeersOf, count_filter (by simpa using hx)]

/-- Removing the links of the outputs of the node leaves none, where the control output controls control inputs only. -/
theorem removeExtraOutEdge_spec (hi : Inside h N) (hn : n < h.nodeCount)
    (hcontrol : ∀ b ∈ h.peers (h.node n).outControlAnchor, h.kind b = .inControl)
    (hr : removeExtraOutEdge n h = some (true, h')) :
    Within True n N h h' ∧ (∀ a ∈ h.anchorsOf n .outData, h'.peers a = []) ∧ h'.peers (h.node n).outControlAnchor = [] := by
  rw [removeExtraOutEdge, get_bind_apply] at hr
  obtain ⟨ok, m, hm, hrest⟩ := bind_eq_some.mp hr
  cases ok with
  | false => simp at hrest
  | true =>
    have howner : ∀ a ∈ h.anchorsOf n .outData, h.owner a = n := hi.sound.laid.owner n hn .outData
    obtain ⟨hwm, hdata⟩ := emptied_in_turn hi howner (fun a ha t t' hw hround => by
      obtain ⟨hao, hka⟩ := own_output hi hn (k := .outData) rfl ha
      exact removeOutData_spec hw.inside ((hw.layout.owner a).trans hao)
        ((congrArg AnchorKind.isIn (hw.layout.kind a)).trans hka) hround) hm
    obtain ⟨hw, hnone⟩ := removePeersOf_spec hwm.inside n hrest
    have hwall := hwm.trans hw
    have hco : h.owner (h.node n).outControlAnchor = n := hi.sound.laid.owner n hn .outControl _ mem_cons_self
    refine ⟨hwall, fun a ha => hw.peers_nil ((hwm.layout.owner a).trans (howner a ha)) (hdata a ha), ?_⟩
    refine peers_nil_of_classes (fun b hb => .inl ?_) hnone hnone
    rw [hwall.layout.kind]
    exact hcontrol b ((hwall.shrink trivial _ hco).subset hb)

/-- An isolation that succeeds leaves a node without links, where it has none to itself, its inputs are fed once, and its
control output controls control inputs only. -/
theorem isolateNode_spec (hi : Inside h N) (hn : n < h.nodeCount) (hloop : NoLoop h n)
    (hf : ∀ a ∈ h.anchorsOf n .inData, FedOnce h a)
    (hcontrol : ∀ b ∈ h.peers (h.node n).outControlAnchor, h.kind b = .inControl)
    (hr : ComputeGraph.isolateNode n h = some (true, h')) :
    Within True n N h h' ∧ ∀ a, h'.owner a = n → h'.peers a = [] := by
  simp only [ComputeGraph.isolateNode, get_bind_apply] at hr
  obtain ⟨ok, t, ht, hr⟩ := bind_eq_some.mp hr
  cases ok with
  | false => simp at hr
  | true =>
    obtain ⟨hwt, hin⟩ := isolateInDatas_spec hi hn hloop hf ht
    simp only [Bool.not_true, Bool.false_eq_true, if_false, get_bind_apply] at hr
    obtain ⟨ok, u, hu, hr⟩ := bind_eq_some.mp hr
    cases ok with
    | false => simp at hr
    | true =>
      have hnt : n < t.nodeCount := hwt.layout.nodeCount ▸ hn
      have hlt : True → NoLoop t n := hwt.noLoop fun _ => hloop
      obtain ⟨hwu, hcontrols⟩ := isolateControls_spec hwt.inside hnt (takeOverControl n) (fun _ _ => rfl)
        (fun p hp m hw => stays_takeOverControl (hw.layout.nodeCount ▸ hnt) (hw.noLoop hlt)
          ((outBeside_control hwt.inside hnt hlt rfl hp).of_layout hw.layout)) hu
      simp only [Bool.not_true, Bool.false_eq_true, if_false, get_bind_apply] at hr
      obtain ⟨ok, v, hv, hr⟩ := bind_eq_some.mp hr
      cases ok with
      | false => simp at hr
      | true =>
        have hnu : n < u.nodeCount := hwu.layout.nodeCount ▸ hnt
        have hlu : True → NoLoop u n := hwu.noLoop hlt
        have hnext : NextBeside True n N u (Node.getOutAllNodes h n) :=
          (nextBeside hi hn fun _ => hloop).of_layout (hwt.layout.trans hwu.layout)
        obtain ⟨hwv, hdatas⟩ := isolateControls_spec hwu.inside hnu (fun p => controlNodes p (Node.getOutAllNodes h n))
          (fun _ _ => rfl)
          (fun p hp m hw => stays_controlNodes ((outBeside_control hwu.inside hnu hlu rfl hp).of_layout hw.layout)
            (hnext.of_layout hw.layout)) hv
        have hwall := (hwt.trans hwu).trans hwv
        have hnv : n < v.nodeCount := hwall.layout.nodeCount ▸ hn
        have hnode : v.node n = h.node n := congrFun hwall.layout.node n
        have hco : h.owner (h.node n).outControlAnchor = n := hi.sound.laid.owner n hn .outControl _ mem_cons_self
        have hcontrol' : ∀ b ∈ v.peers (v.node n).outControlAnchor, v.kind b = .inControl := fun b hb => by
          rw [hnode] at hb
          exact (hwall.layout.kind b).trans (hcontrol b ((hwall.shrink trivial _ hco).subset hb))
        obtain ⟨hw, houts, hout⟩ := removeExtraOutEdge_spec hwv.inside hnv hcontrol' hr
        have hend := hwall.trans hw
        have hci : u.owner (h.node n).inControlAnchor = n := by
          rw [(hwt.trans hwu).layout.owner]
          exact hi.sound.laid.owner n hn .inControl _ mem_cons_self
        rw [congrFun hwt.layout.node n] at hcontrols
        rw [congrFun (hwt.layout.trans hwu.layout).node n] at hdatas
        have hinControl : h'.peers (h.node n).inControlAnchor = [] := by
          refine peers_nil_of_classes (k := .outControl) (l := .outData) (fun b hb => ?_)
            ((hwv.trans hw).getPeersOf_nil hci hcontrols) (hw.getPeersOf_nil ((hwv.layout.owner _).trans hci) hdatas)
          have hout : (h'.kind b).isIn = false := by
            rw [hend.inside.directed _ b hb, hend.layout.kind, hi.sound.laid.kind n hn .inControl _ mem_cons_self]
            rfl
          cases hk : h'.kind b with
          | outControl => exact .inl rfl
          | outData => exact .inr rfl
          | inData | inControl => rw [hk] at hout; cases hout
        refine ⟨hend, fun a ha => eq_nil_iff_forall_not_mem.mpr fun b hb => ?_⟩
        have hao : h.owner a = n := (hend.layout.owner a).symm.trans ha
        have hheld := ((hend.layout.held a).mp (hend.inside.sound.symm.held hend.inside.sound.peersHeld hb)).2
        rw [hao] at hheld
        have hnone : h'.peers a = [] := by
          cases hk : h.kind a with
          | inData =>
            rw [hk] at hheld
            exact ((hwu.trans hwv).trans hw).peers_nil ((hwt.layout.owner a).trans hao) (hin a hheld)
          | inControl =>
            rw [hk] at hheld
            rw [mem_singleton.mp hheld]
            exact hinControl
          | outData =>
            rw [hk] at hheld
            exact houts a (hwall.layout.anchorsOf n .outData ▸ hheld)
          | outControl =>
            rw [hk] at hheld
            rw [mem_singleton.mp hheld, ← hnode]
            exact hout
        rw [hnone] at hb
        cases hb

end ClosedAux

end Metadef
