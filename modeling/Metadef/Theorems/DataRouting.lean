import Metadef.Lemmas.DataRouting
import Metadef.Theorems.Isolation

/-!
# An isolation routes data as its map says

The inputs an output fed are fed by the source of the input the output is mapped to. An input of the node is unlinked by the
first output mapped to it, so a second one finds no source, and its consumers lose theirs.
-/

namespace Metadef

open List

/-- What a map from outputs to inputs promises of the inputs the outputs of a node fed: where an output is mapped to an input
with a source they are fed by it, and where it is mapped to none they have no links. -/
def Heap.Routed (h h' : Heap) (n : NodeId) (ioMap : List Int) : Prop :=
  ∀ i o, (h.node n).outDataAnchors[i]? = some o → ∀ x ∈ OutDataAnchor.getPeerInDataAnchors h o,
    (∀ a, RoutingAux.inputOf (h.node n).inDataAnchors (ioMap.getD i (-1)) = some a →
      ∀ p ∈ h.peers a, h.kind p = .outData → InDataAnchor.getPeerOutAnchor h' x = some p) ∧
    (ioMap.getD i (-1) < 0 → h'.peers x = [])

/-- Where an output that feeds an input is mapped to an input with a source, no output before is mapped to the same, and the
node feeds itself by neither. -/
def Heap.Routable (h : Heap) (n : NodeId) (ioMap : List Int) : Prop :=
  ∀ i o, (h.node n).outDataAnchors[i]? = some o → ∀ x ∈ OutDataAnchor.getPeerInDataAnchors h o,
    ∀ a, RoutingAux.inputOf (h.node n).inDataAnchors (ioMap.getD i (-1)) = some a → ∀ p ∈ h.peers a, h.kind p = .outData →
      h.owner p ≠ n ∧ h.owner x ≠ n ∧ ∀ j < i, RoutingAux.inputOf (h.node n).inDataAnchors (ioMap.getD j (-1)) ≠ some a

namespace RoutingAux

open Cmd Heap LinkAux IsolateAux

variable {h h' : Heap} {n : NodeId}

/-! ## After the loop -/

/-- What is left to do keeps the links of inputs that are apart from the node, and adds no link of an input. -/
structure Settling (h₀ : Heap) (n : NodeId) (q : AnchorId → List AnchorId) (h : Heap) : Prop where
  sound : h.Sound
  layout : SameLayout h₀ h
  less : ∀ y, h₀.kind y = .inData → h.peers y ⊆ q y
  apart : ∀ y, h₀.kind y = .inData → h₀.owner y ≠ n → (∀ b ∈ q y, h₀.owner b ≠ n) → h.peers y = q y

variable {h₀ : Heap} {q : AnchorId → List AnchorId}

theorem keeps_settling_unlink {u : AnchorId} (hu : h₀.owner u = n) (peer : Option AnchorId) :
    Keeps (Settling h₀ n q) (Anchor.unlink u peer) := by
  intro h ok h' hi hr
  cases ok with
  | false =>
    rcases unlink_cases hr with ⟨-, rfl⟩ | ⟨hok, -⟩
    · exact hi
    · cases hok
  | true =>
    rcases unlink_cases hr with ⟨hok, -⟩ | ⟨-, p, -, -, rfl, -⟩
    · cases hok
    · obtain ⟨-, hmem, hlayout, hpeers⟩ := unlink_true hi.sound hr
      refine ⟨keeps_unlink u (some p) h true h' hi.sound hr, hi.layout.trans hlayout, fun y hy => ?_, fun y hy hyn hq => ?_⟩
      · refine List.Subset.trans ?_ (hi.less y hy)
        rw [hpeers]
        split
        · rename_i he
          exact he ▸ erase_subset
        · split
          · rename_i he
            exact he ▸ erase_subset
          · exact List.Subset.refl _
      · have hyp : y ≠ p := by
          rintro rfl
          exact hq u (hi.less y hy (hi.sound.symm.mem hmem)) hu
        have hyu : y ≠ u := fun e => hyn (e ▸ hu)
        rw [hpeers, if_neg hyp, if_neg hyu]
        exact hi.apart y hy hyn hq

theorem keeps_settling_unlinkEach (l : List AnchorId) (hl : ∀ u ∈ l, h₀.owner u = n) :
    Keeps (Settling h₀ n q) (NodeUtils.unlinkEach l) := by
  induction l with
  | nil => exact Keeps.pure ()
  | cons u l ih =>
    exact Keeps.bind (keeps_unlinkAll (keeps_settling_unlink (hl u mem_cons_self)))
      fun _ => ih fun v hv => hl v (mem_cons_of_mem u hv)

/-- Relinking two nodes leaves the heap, or adds a control link between them. -/
theorem relinkControl_cases {connected : List (NodeId × NodeId)} {a b : NodeId} {ok : Bool}
    (hr : GraphUtils.relinkControl connected a b h = some (ok, h')) :
    h' = h ∨ h' = Anchor.linked h (h.node a).outControlAnchor (h.node b).inControlAnchor := by
  unfold GraphUtils.relinkControl at hr
  by_cases hc : (a, b) ∈ connected
  · rw [if_pos hc] at hr
    exact .inl (show true = ok ∧ h = h' by simpa using hr).2.symm
  rw [if_neg hc, get_bind_apply] at hr
  by_cases hlinked : Anchor.isLinkedWith h (h.node a).outControlAnchor (some (h.node b).inControlAnchor) = true
  · rw [if_pos hlinked] at hr
    exact .inl (show true = ok ∧ h = h' by simpa using hr).2.symm
  rw [if_neg hlinked] at hr
  by_cases hab : a = b
  · rw [if_pos hab] at hr
    exact .inl (show true = ok ∧ h = h' by simpa using hr).2.symm
  · rw [if_neg hab] at hr
    have hlink : Anchor.link (h.node a).outControlAnchor (some (h.node b).inControlAnchor) (fun _ _ => true) h =
      some (ok, h') := hr
    rcases link_cases hlink with ⟨-, rfl⟩ | ⟨-, o, ho, -, rfl⟩
    · exact .inl rfl
    · obtain rfl : (h.node b).inControlAnchor = o := Option.some.inj ho
      exact .inr rfl

/-- A control link leaves the links of inputs. -/
theorem keeps_settling_relinkControl (connected : List (NodeId × NodeId)) {a b : NodeId} (ha : a < h₀.nodeCount)
    (hb : b < h₀.nodeCount) : Keeps (Settling h₀ n q) (GraphUtils.relinkControl connected a b) := by
  intro h ok h' hi hr
  rcases relinkControl_cases hr with rfl | rfl
  · exact hi
  · have hl := hi.sound.laid
    have ha' : a < h.nodeCount := hi.layout.nodeCount ▸ ha
    have hb' : b < h.nodeCount := hi.layout.nodeCount ▸ hb
    have hout : (h.node a).outControlAnchor ∈ h.anchorsOf a .outControl := mem_cons_self
    have hin : (h.node b).inControlAnchor ∈ h.anchorsOf b .inControl := mem_cons_self
    have hsame : ∀ y, h₀.kind y = .inData →
        (Anchor.linked h (h.node a).outControlAnchor (h.node b).inControlAnchor).peers y = h.peers y := by
      intro y hy
      have hky := (hi.layout.kind y).trans hy
      have hyo : y ≠ (h.node a).outControlAnchor := by
        rintro rfl
        exact absurd (hky.symm.trans (hl.kind a ha' _ _ hout)) (by decide)
      have hyi : y ≠ (h.node b).inControlAnchor := by
        rintro rfl
        exact absurd (hky.symm.trans (hl.kind b hb' _ _ hin)) (by decide)
      rw [linked_peers, Adjacency.push, Function.update_of_ne hyi, Adjacency.push, Function.update_of_ne hyo]
    exact ⟨hi.sound.linked (hl.held ha' hout) (hl.held hb' hin), hi.layout.trans (sameLayout_linked h _ _),
      fun y hy => hsame y hy ▸ hi.less y hy, fun y hy hyn hq => (hsame y hy).trans (hi.apart y hy hyn hq)⟩

/-- Taking all links from some anchors leaves them without peers, and those that had none. -/
theorem unlinkEach_empties (l : List AnchorId) : ∀ {h : Heap}, h.Sound → NodeUtils.unlinkEach l h = some ((), h') →
    h'.Sound ∧ SameLayout h h' ∧ ∀ a, a ∈ l ∨ h.peers a = [] → h'.peers a = [] := by
  induction l with
  | nil =>
    intro h hs hr
    obtain rfl : h = h' := by simpa [NodeUtils.unlinkEach] using hr
    exact ⟨hs, SameLayout.refl h, fun a ha => ha.resolve_left not_mem_nil⟩
  | cons u l ih =>
    intro h hs hr
    obtain ⟨⟨⟩, m, hm, hrest⟩ := bind_eq_some.mp hr
    obtain ⟨hsm, hl, hempty, -⟩ := unlinkAll_others hs hm
    obtain ⟨hs', hl', hkept⟩ := ih hsm hrest
    refine ⟨hs', hl.trans hl', fun a ha => ?_⟩
    rcases ha with ha | ha
    · rcases mem_cons.mp ha with rfl | ha
      · exact hkept a (.inr hempty)
      · exact hkept a (.inl ha)
    · exact hkept a (.inr (keeps_unlinkAll (keeps_unlinked a u) h () m ha hm))

/-- Taking all links from a node leaves none of its anchors a peer. -/
theorem unlinkAll_empties (hs : h.Sound) (hr : NodeUtils.unlinkAll n h = some ((), h')) :
    h'.Sound ∧ SameLayout h h' ∧ ∀ a, h.owner a = n → h'.peers a = [] := by
  unfold NodeUtils.unlinkAll at hr
  rw [get_bind_apply] at hr
  obtain ⟨⟨⟩, m, hm, hrest⟩ := bind_eq_some.mp hr
  obtain ⟨hsm, hl, houts⟩ := unlinkEach_empties _ hs hm
  obtain ⟨hs', hl', hins⟩ := unlinkEach_empties _ hsm hrest
  refine ⟨hs', hl.trans hl', fun a ha => ?_⟩
  refine eq_nil_iff_forall_not_mem.mpr fun b hb => ?_
  have hnone : h'.peers a = [] := by
    obtain ⟨-, hheld⟩ := ((hl.trans hl').held a).mp (hs'.symm.held hs'.peersHeld hb)
    rw [ha] at hheld
    cases hk : h.kind a with
    | inData | inControl =>
      rw [hk] at hheld
      exact hins a (.inl (by first | exact mem_append_left _ hheld | exact mem_append_right _ hheld))
    | outData | outControl =>
      rw [hk] at hheld
      exact hins a (.inr (houts a (.inl (by
        first | exact mem_append_left _ hheld | exact mem_append_right _ hheld))))
  rw [hnone] at hb
  cases hb

/-! ## The whole call -/

/-- What an isolation that succeeds has done to the links of inputs: those after the loop over the outputs stay where they
are apart from the node, none is added, and the node has none. -/
theorem isolateNode_settles {ioMap : List Int} (hs : h.Sound) (hd : h.Directed) (hn : n < h.nodeCount)
    {inOrder : Enumeration} {outOrder : NodeId → Enumeration}
    (hr : GraphUtils.isolateNode inOrder outOrder (some n) ioMap h = some (true, h')) :
    ∃ m pairs, GraphUtils.relinkOutputs (h.node n).inDataAnchors (h.node n).outDataAnchors ioMap h = some (some pairs, m) ∧
      Settling h n m.peers h' ∧ ∀ a, h.owner a = n → h'.peers a = [] := by
  have hmade : ∀ {a b}, h.AnyEdge a b → a < h.nodeCount ∧ b < h.nodeCount := by
    rintro a b ⟨x, y, hy, -, rfl, rfl, -⟩
    exact ⟨(hs.symm.held hs.peersHeld hy).1, (hs.peersHeld x y hy).1⟩
  have hends : Ends h (h.node n).inDataAnchors (h.node n).outDataAnchors :=
    ⟨fun a ha => hs.laid.kind n hn .inData a ha, fun o ho => hs.laid.kind n hn .outData o ho⟩
  have hown : ∀ k, ∀ a ∈ h.anchorsOf n k, h.owner a = n := hs.laid.owner n hn
  unfold GraphUtils.isolateNode at hr
  simp only [get_bind_apply] at hr
  obtain ⟨r, h₁, hrelink, hr⟩ := bind_eq_some.mp hr
  cases r with
  | none => simp at hr
  | some pairs =>
    unfold GraphUtils.relinkDataIO at hrelink
    simp only [get_bind_apply] at hrelink
    by_cases hlen : (h.node n).outDataAnchors.length < ioMap.length
    · simp [hlen] at hrelink
    rw [if_neg hlen] at hrelink
    obtain ⟨r, m, hloop, hrelink⟩ := bind_eq_some.mp hrelink
    cases r with
    | none => simp at hrelink
    | some pairs' =>
      obtain ⟨⟨⟩, m₁, heach, hrelink⟩ := bind_eq_some.mp hrelink
      obtain ⟨-, rfl⟩ := of_return hrelink
      obtain ⟨hsm, hlm, -⟩ := relinkOutputs_keeps _ hs hends hloop
      have hstart : Settling h n m.peers m := ⟨hsm, hlm, fun _ _ => List.Subset.refl _, fun _ _ _ _ => rfl⟩
      have hset₁ := keeps_settling_unlinkEach _ (hown .inData) m () m₁ hstart heach
      obtain ⟨ok, h₂, hcontrol, hr⟩ := bind_eq_some.mp hr
      cases ok with
      | false => simp at hr
      | true =>
        obtain ⟨⟨⟩, h₃, hunlink, hr⟩ := bind_eq_some.mp hr
        obtain rfl : h₃ = h' := by simpa using hr
        have hset₂ : Settling h n m.peers h₂ := by
          refine Keeps.eachOk (fun a ha => Keeps.eachOk fun b hb => ?_) m₁ true h₂ hset₁ hcontrol
          exact keeps_settling_relinkControl _ (hmade (edge_of_inNode hs hd hn ((inOrder.mem _ a).mp ha))).1
            (hmade (edge_of_outNode hs hd hn (((outOrder a).mem _ b).mp hb))).2
        have hset₃ : Settling h n m.peers h₃ := by
          unfold NodeUtils.unlinkAll at hunlink
          rw [get_bind_apply] at hunlink
          obtain ⟨⟨⟩, m₂, houts, hins⟩ := bind_eq_some.mp hunlink
          have hnode := hset₂.layout.node
          rw [hnode] at houts hins
          refine keeps_settling_unlinkEach _ (fun u hu => ?_) m₂ () h₃
            (keeps_settling_unlinkEach _ (fun u hu => ?_) h₂ () m₂ hset₂ houts) hins
          · exact (mem_append.mp hu).elim (hown .inData u) (hown .inControl u)
          · exact (mem_append.mp hu).elim (hown .outData u) (hown .outControl u)
        obtain ⟨-, -, hempty⟩ := unlinkAll_empties hset₂.sound hunlink
        exact ⟨m, pairs', hloop, hset₃, fun a ha => hempty a ((hset₂.layout.owner a).trans ha)⟩

/-- The input an entry names is one of the list. -/
theorem mem_of_inputOf {ins : List AnchorId} {k : Int} {a : AnchorId} (ha : inputOf ins k = some a) : a ∈ ins := by
  unfold inputOf at ha
  split at ha
  · cases ha
  · exact mem_of_getElem? ha

/-- An input with a peer and no room for a second has that peer alone. -/
theorem peers_eq_singleton {l : List AnchorId} {b : AnchorId} (hb : b ∈ l) (hone : l.length ≤ 1) : l = [b] := by
  match l with
  | [c] => rw [mem_singleton.mp hb]
  | _ :: _ :: _ => simp at hone

end RoutingAux

open RoutingAux IsolateAux in
/-- Where every input has at most one link, an isolation that succeeds routes data as its map says exactly when the map is
routable. -/
theorem isolate_routes_iff (h h' : Heap) (n : NodeId) (ioMap : List Int) (inOrder : Enumeration) (outOrder : NodeId → Enumeration)
    (hs : h.Sound) (hd : h.Directed) (hsingle : ∀ a, h.kind a = .inData → (h.peers a).length ≤ 1) (hn : n < h.nodeCount)
    (hr : GraphUtils.isolateNode inOrder outOrder (some n) ioMap h = some (true, h')) :
    h.Routed h' n ioMap ↔ h.Routable n ioMap := by
  obtain ⟨m, pairs, hloop, hset, hempty⟩ := isolateNode_settles hs hd hn hr
  have hends : Ends h (h.node n).inDataAnchors (h.node n).outDataAnchors :=
    ⟨fun a ha => hs.laid.kind n hn .inData a ha, fun o ho => hs.laid.kind n hn .outData o ho⟩
  have hnodup : (h.node n).outDataAnchors.Nodup := hs.laid.nodup hn .outData
  -- One input an output fed: what it ends with, and whether that is what the map says.
  have hfed : ∀ o x, x ∈ OutDataAnchor.getPeerInDataAnchors h o → h.kind x = .inData ∧ h.peers x = [o] := by
    intro o x hx
    obtain ⟨hx, hk⟩ := mem_filter.mp hx
    have hkx : h.kind x = .inData := of_decide_eq_true hk
    exact ⟨hkx, peers_eq_singleton (hs.symm.mem hx) (hsingle x hkx)⟩
  have hunmapped : ∀ i o, (h.node n).outDataAnchors[i]? = some o → ∀ x ∈ OutDataAnchor.getPeerInDataAnchors h o,
      ioMap.getD i (-1) < 0 → h'.peers x = [] := by
    intro i o hi x hx hneg
    obtain ⟨hkx, hpx⟩ := hfed o x hx
    have hm := relinkOutputs_unmapped _ hs hends hnodup hloop hi hneg hkx (hpx ▸ List.Subset.refl _)
    exact subset_nil.mp (hm ▸ hset.less x hkx)
  have hmapped : ∀ i o, (h.node n).outDataAnchors[i]? = some o → ∀ x ∈ OutDataAnchor.getPeerInDataAnchors h o,
      ∀ a, inputOf (h.node n).inDataAnchors (ioMap.getD i (-1)) = some a → ∀ p ∈ h.peers a, h.kind p = .outData →
      (InDataAnchor.getPeerOutAnchor h' x = some p ↔
        h.owner p ≠ n ∧ h.owner x ≠ n ∧ ∀ j < i, inputOf (h.node n).inDataAnchors (ioMap.getD j (-1)) ≠ some a) := by
    intro i o hi x hx a ha p hp hkp
    obtain ⟨hkx, hpx⟩ := hfed o x hx
    have hpa : h.peers a = [p] := peers_eq_singleton hp (hsingle a (hends.ins a (mem_of_inputOf ha)))
    have hon : h.owner o = n := hs.laid.owner n hn .outData o (mem_of_getElem? hi)
    by_cases hpn : h.owner p = n
    · refine iff_of_false (fun hget => ?_) fun hall => hall.1 hpn
      have hback := hset.sound.symm.mem (of_getPeerOutAnchor hget).1
      rw [hempty p hpn] at hback
      cases hback
    by_cases hxn : h.owner x = n
    · refine iff_of_false (fun hget => ?_) fun hall => hall.2.1 hxn
      have hmem := (of_getPeerOutAnchor hget).1
      rw [hempty x hxn] at hmem
      cases hmem
    have hm := relinkOutputs_mapped _ hs hends hnodup hloop hi ha hkp
      (fun hmem => hpn (hs.laid.owner n hn .outData p hmem)) hkx (fun hmem => hxn (hs.laid.owner n hn .inData x hmem)) hpx
      (.inl hpa)
    by_cases hfirst : ∀ j < i, inputOf (h.node n).inDataAnchors (ioMap.getD j (-1)) ≠ some a
    · refine iff_of_true ?_ ⟨hpn, hxn, hfirst⟩
      rw [if_pos ⟨hpa, hfirst⟩] at hm
      have hpeers : h'.peers x = [p] := by
        rw [hset.apart x hkx hxn ?_, hm]
        rw [hm]
        exact fun b hb => mem_singleton.mp hb ▸ hpn
      simp [InDataAnchor.getPeerOutAnchor, hpeers, (hset.layout.kind p).trans hkp]
    · refine iff_of_false (fun hget => ?_) fun hall => hfirst hall.2.2
      rw [if_neg fun hall => hfirst hall.2] at hm
      have hmem := hset.less x hkx (of_getPeerOutAnchor hget).1
      rw [hm] at hmem
      exact hpn (mem_singleton.mp hmem ▸ hon)
  constructor
  · intro hrouted i o hi x hx a ha p hp hkp
    exact (hmapped i o hi x hx a ha p hp hkp).mp ((hrouted i o hi x hx).1 a ha p hp hkp)
  · intro hroutable i o hi x hx
    exact ⟨fun a ha p hp hkp => (hmapped i o hi x hx a ha p hp hkp).mpr (hroutable i o hi x hx a ha p hp hkp),
      hunmapped i o hi x hx⟩

namespace DataRoutingWitness

open IsolationWitness

/-- An output of the first node feeds the second, whose two outputs feed the third and the fourth. Control anchors come
first. -/
def forking : List LinkCall :=
  [.newOp { outputsDesc := [{}] }, .newNode 0, .newOp { inputsDesc := [{}], outputsDesc := [{}, {}] }, .newNode 1,
    .newOp { inputsDesc := [{}] }, .newNode 2, .newNode 2,
    .addDataEdge (some 2) (some 5), .addDataEdge (some 6) (some 10), .addDataEdge (some 7) (some 13)]

def fork : Heap := (LinkCall.runAll forking).getD .empty

theorem sound_fork : fork.Sound := sound_runAll forking fork (by decide +kernel) rfl

theorem single_fork : ∀ a, fork.kind a = .inData → (fork.peers a).length ≤ 1 := by
  intro a _
  by_cases ha : a < fork.anchorCount
  · have hall : ∀ a < fork.anchorCount, (fork.peers a).length ≤ 1 := by decide +kernel
    exact hall a ha
  · rw [AnchorAux.peers_of_not_made sound_fork (Nat.le_of_not_lt ha)]
    exact Nat.zero_le 1

theorem isolate_routes_iff_fork :
    ∃ h', GraphUtils.isolateNode inListOrder (fun _ => inListOrder) (some 1) [0] fork = some (true, h') ∧
      (fork.Routed h' 1 [0] ↔ fork.Routable 1 [0]) :=
  have ⟨h', hr, _⟩ : ∃ h', GraphUtils.isolateNode inListOrder (fun _ => inListOrder) (some 1) [0] fork = some (true, h') ∧ True :=
    Cmd.exists_of_decide (by decide +kernel)
  ⟨h', hr, isolate_routes_iff fork h' 1 [0] inListOrder (fun _ => inListOrder) sound_fork
    (sound_fork.forall_peers (by decide +kernel)) single_fork (by decide +kernel) hr⟩

/-- Both outputs are mapped to the one input: the consumer of the second is left without a source. -/
theorem isolate_routes_false :
    ¬ ∀ (h h' : Heap) (n : NodeId) (ioMap : List Int) (inOrder : Enumeration) (outOrder : NodeId → Enumeration),
      h.Sound → h.Directed → (∀ a, h.kind a = .inData → (h.peers a).length ≤ 1) → n < h.nodeCount →
      GraphUtils.isolateNode inOrder outOrder (some n) ioMap h = some (true, h') → h.Routed h' n ioMap := by
  intro hall
  obtain ⟨h', hr, hnone⟩ : ∃ h', GraphUtils.isolateNode inListOrder (fun _ => inListOrder) (some 1) [0, 0] fork =
      some (true, h') ∧ h'.peers 13 = [] := Cmd.exists_of_decide (by decide +kernel)
  have hrouted := hall fork h' 1 [0, 0] _ _ sound_fork (sound_fork.forall_peers (by decide +kernel)) single_fork
    (by decide +kernel) hr 1 7 (by decide +kernel) 13 (by decide +kernel)
  have hget := hrouted.1 5 (by decide +kernel) 2 (by decide +kernel) (by decide +kernel)
  simp [InDataAnchor.getPeerOutAnchor, hnone] at hget

end DataRoutingWitness

end Metadef
