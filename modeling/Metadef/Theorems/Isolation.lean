import Metadef.Lemmas.IsolateRun
import Metadef.Lib.Contract
import Metadef.Theorems.LinkSymmetry

/-!
# Isolating a node keeps what is reached

An isolation that succeeds takes all links of the node away. The nodes left reach one another as before exactly when the
edges that stay and those it adds lead from every node before the isolated one to every node behind it.
-/

namespace Metadef

open List

open Heap Relation

/-- What an isolation should do: the node is left without links, the other nodes reach one another as before, and there is
no cycle. -/
structure Heap.IsolatedFrom (h h' : Heap) (n : NodeId) : Prop where
  unlinked : ∀ a, h'.owner a = n → h'.peers a = []
  reach : ∀ a b, a ≠ n → b ≠ n → (TransGen h'.AnyEdge a b ↔ TransGen h.AnyEdge a b)
  acyclic : ∀ a, ¬ TransGen h'.AnyEdge a a

/-- The edges away from a node, the pairs of its in and out nodes, and the pairs its data links are moved between. -/
def Heap.Bridged (h : Heap) (n : NodeId) (ioMap : List Int) (u v : NodeId) : Prop :=
  u ≠ n ∧ v ≠ n ∧ (h.AnyEdge u v ∨ (u ∈ Node.getInNodes h n ∧ v ∈ Node.getOutNodes h n) ∨
    (u, v) ∈ IsolateAux.movedPairs h n ioMap)

/-- These lead from every node with an edge to the node to every node with an edge from it. -/
def Heap.PathsPast (h : Heap) (n : NodeId) (ioMap : List Int) : Prop :=
  ∀ a b, h.AnyEdge a n → h.AnyEdge n b → TransGen (h.Bridged n ioMap) a b

namespace IsolateAux

variable {h h' : Heap} {n : NodeId} {ioMap : List Int}

/-! ## Neighbours -/

/-- A link of a node makes an edge between it and the owner of the peer, by the direction of its anchor. -/
theorem edge_of_peer (hs : h.Sound) (hd : h.Directed) {a b : AnchorId} (hb : b ∈ h.peers a) :
    ((h.kind a).isIn = false → h.AnyEdge (h.owner a) (h.owner b)) ∧
      ((h.kind a).isIn = true → h.AnyEdge (h.owner b) (h.owner a)) := by
  refine ⟨fun hk => ⟨a, b, hb, hk, rfl, rfl, rfl⟩, fun hk => ⟨b, a, hs.symm.mem hb, ?_, rfl, rfl, rfl⟩⟩
  rw [hd a b hb, hk]
  rfl

/-- The in nodes have edges to the node. -/
theorem edge_of_inNode (hs : h.Sound) (hd : h.Directed) (hn : n < h.nodeCount) {u : NodeId}
    (hu : u ∈ Node.getInNodes h n) : h.AnyEdge u n := by
  have hcontrol : ∀ k, u ∈ (Anchor.getPeersOf h (h.node n).inControlAnchor k).map h.owner → h.AnyEdge u n := by
    intro k hu
    obtain ⟨s, hmem, rfl⟩ := List.mem_map.mp hu
    have hedge := (edge_of_peer hs hd (mem_filter.mp hmem).1).2
    rw [hs.laid.owner n hn .inControl _ mem_cons_self, hs.laid.kind n hn .inControl _ mem_cons_self] at hedge
    exact hedge rfl
  unfold Node.getInNodes at hu
  rcases mem_append.mp hu with hu | hu
  · rcases mem_append.mp hu with hu | hu
    · unfold Node.getInDataNodes at hu
      obtain ⟨s, hmem, rfl⟩ := List.mem_map.mp hu
      obtain ⟨a, ha, hpeer⟩ := mem_filterMap.mp hmem
      have hedge := (edge_of_peer hs hd ((of_getPeerOutAnchor hpeer).1)).2
      rw [hs.laid.owner n hn .inData a ha, hs.laid.kind n hn .inData a ha] at hedge
      exact hedge rfl
    · exact hcontrol _ hu
  · exact hcontrol _ hu

/-- The out nodes have edges from the node. -/
theorem edge_of_outNode (hs : h.Sound) (hd : h.Directed) (hn : n < h.nodeCount) {v : NodeId}
    (hv : v ∈ Node.getOutNodes h n) : h.AnyEdge n v := by
  unfold Node.getOutNodes Node.getOutDataNodes at hv
  rcases mem_append.mp hv with hv | hv
  · obtain ⟨p, hmem, rfl⟩ := List.mem_map.mp hv
    obtain ⟨o, ho, hp⟩ := mem_flatMap.mp hmem
    have hedge := (edge_of_peer hs hd (mem_filter.mp hp).1).1
    rw [hs.laid.owner n hn .outData o ho, hs.laid.kind n hn .outData o ho] at hedge
    exact hedge rfl
  · obtain ⟨p, hp, rfl⟩ := List.mem_map.mp hv
    have hedge := (edge_of_peer hs hd (mem_filter.mp hp).1).1
    rw [hs.laid.owner n hn .outControl _ mem_cons_self, hs.laid.kind n hn .outControl _ mem_cons_self] at hedge
    exact hedge rfl

/-- Data links are moved from nodes before the node to nodes behind it. -/
theorem edge_of_relinkPairs (hs : h.Sound) (hd : h.Directed) {ins : List AnchorId} (outs : List AnchorId) :
    ∀ {ioMap : List Int} {left : AnchorId → List AnchorId}, OwnAnchors h n ins outs → (∀ a ∈ ins, left a ⊆ h.peers a) →
      ∀ p ∈ relinkPairs h ins outs ioMap left, h.AnyEdge p.1 n ∧ h.AnyEdge n p.2 := by
  induction outs with
  | nil =>
    intro ioMap left _ _ p hp
    cases hp
  | cons o outs ih =>
    intro ioMap left hown hleft p hp
    have hown' : OwnAnchors h n ins outs :=
      ⟨hown.inData, fun a ha => hown.outData a (mem_cons_of_mem o ha), (nodup_cons.mp hown.nodup).2⟩
    unfold relinkPairs relinkStep at hp
    cases hm : mappedInput h ins (ioMap.headD (-1)) left with
    | none =>
      simp only [hm, nil_append] at hp
      exact ih hown' hleft p hp
    | some as =>
      obtain ⟨a, s⟩ := as
      have hsource : a ∈ ins ∧ s ∈ left a ∧ h.kind s = .outData := by
        unfold mappedInput at hm
        split at hm
        · cases hm
        · obtain ⟨a', ha', hm⟩ := Option.bind_eq_some_iff.mp hm
          obtain ⟨s', hs', hm⟩ := Option.bind_eq_some_iff.mp hm
          split at hm
          · rename_i hk
            obtain ⟨rfl, rfl⟩ := Cmd.of_return hm
            exact ⟨mem_of_getElem? ha', mem_of_mem_head? hs', hk⟩
          · cases hm
      obtain ⟨ha, hsleft, hks⟩ := hsource
      simp only [hm] at hp
      rcases mem_append.mp hp with hp | hp
      · obtain ⟨x, hx, rfl⟩ := List.mem_map.mp hp
        obtain ⟨ho, hko⟩ := hown.outData o mem_cons_self
        obtain ⟨hao, hka⟩ := hown.inData a ha
        have hin := (edge_of_peer hs hd (hleft a ha hsleft)).2 (by rw [hka]; rfl)
        have hout := (edge_of_peer hs hd (mem_filter.mp hx).1).1 (by rw [hko]; rfl)
        rw [hao] at hin
        rw [ho] at hout
        exact ⟨hin, hout⟩
      · refine ih hown' (fun b hb => ?_) p hp
        intro x hx
        rw [Function.update_apply] at hx
        split at hx
        · rename_i hba
          exact hba ▸ hleft a ha (mem_of_mem_tail hx)
        · exact hleft b hb hx

theorem ownAnchors (hl : h.Laid) (hn : n < h.nodeCount) : OwnAnchors h n (h.node n).inDataAnchors (h.node n).outDataAnchors :=
  ⟨fun a ha => ⟨hl.owner n hn .inData a ha, hl.kind n hn .inData a ha⟩,
    fun a ha => ⟨hl.owner n hn .outData a ha, hl.kind n hn .outData a ha⟩, hl.nodup hn .outData⟩

/-- No anchor of a node that is on no cycle is linked to another of its anchors. -/
theorem noLoop (hs : h.Sound) (hd : h.Directed) (hacyclic : ¬ TransGen h.AnyEdge n n) : NoLoop h n := by
  intro a b ha hb hbn
  obtain ⟨hout, hin⟩ := edge_of_peer hs hd hb
  rw [ha, hbn] at hout hin
  cases hk : (h.kind a).isIn with
  | false => exact hacyclic (.single (hout hk))
  | true => exact hacyclic (.single (hin hk))

/-- Edges that lead from lower to higher nodes have no cycle. -/
theorem acyclic_of_lt (hs : h.Sound)
    (hlt : ∀ a < h.anchorCount, ∀ b ∈ h.peers a, (h.kind a).isIn = false → h.owner a < h.owner b) :
    ∀ a, ¬ TransGen h.AnyEdge a a := by
  have hstep : ∀ u v, h.AnyEdge u v → u < v := by
    rintro u v ⟨a, b, hb, hk, rfl, rfl, -⟩
    exact hs.forall_peers (P := fun a b => (h.kind a).isIn = false → h.owner a < h.owner b) hlt a b hb hk
  have hpath : ∀ u v, TransGen h.AnyEdge u v → u < v := by
    intro u v huv
    induction huv with
    | single huv => exact hstep _ _ huv
    | tail _ hvw ih => exact Nat.lt_trans ih (hstep _ _ hvw)
  exact fun a ha => Nat.lt_irrefl a (hpath a a ha)

/-! ## The edges after an isolation -/

/-- Taking all links of a node away leaves none of its anchors with a peer. -/
theorem unlinkAll_spec {R : List (NodeId × NodeId)} {h₀ : Heap} (hloop : NoLoop h₀ n) (hn : n < h₀.nodeCount)
    (hi : Isolating h₀ n R h) (hr : NodeUtils.unlinkAll n h = some ((), h')) :
    Isolating h₀ n R h' ∧ ∀ a, h'.owner a = n → h'.peers a = [] := by
  have hn' : n < h.nodeCount := hi.layout.nodeCount ▸ hn
  have howner : ∀ k, ∀ a ∈ h.anchorsOf n k, h₀.owner a = n := fun k a ha => by
    rw [← hi.layout.owner]
    exact hi.sound.laid.owner n hn' k a ha
  have houts : ∀ o ∈ (h.node n).outDataAnchors ++ [(h.node n).outControlAnchor], h₀.owner o = n := fun o ho =>
    (mem_append.mp ho).elim (howner .outData o) (howner .outControl o)
  have hins : ∀ o ∈ (h.node n).inDataAnchors ++ [(h.node n).inControlAnchor], h₀.owner o = n := fun o ho =>
    (mem_append.mp ho).elim (howner .inData o) (howner .inControl o)
  unfold NodeUtils.unlinkAll at hr
  rw [Cmd.get_bind_apply] at hr
  obtain ⟨u, m, hm, hrest⟩ := Cmd.bind_eq_some.mp hr
  obtain ⟨him, hempty⟩ := hi.unlinkEach hloop houts hm
  obtain ⟨hi', hempty'⟩ := him.unlinkEach hloop hins hrest
  refine ⟨hi', fun a ha => ?_⟩
  have ha₀ : h₀.owner a = n := (hi'.layout.owner a).symm.trans ha
  refine eq_nil_iff_forall_not_mem.mpr fun b hb => ?_
  obtain ⟨-, hheld⟩ := (hi.layout.held a).mpr ((hi'.layout.held a).mp (hi'.sound.symm.held hi'.sound.peersHeld hb))
  rw [hi.layout.owner, ha₀] at hheld
  have hnone : h'.peers a = [] := by
    cases hk : h.kind a with
    | inData =>
      rw [hk] at hheld
      exact hempty' a ha₀ (.inl (mem_append_left _ hheld))
    | inControl =>
      rw [hk] at hheld
      exact hempty' a ha₀ (.inl (mem_append_right _ hheld))
    | outData =>
      rw [hk] at hheld
      exact hempty' a ha₀ (.inr (hempty a ha₀ (.inl (mem_append_left _ hheld))))
    | outControl =>
      rw [hk] at hheld
      exact hempty' a ha₀ (.inr (hempty a ha₀ (.inl (mem_append_right _ hheld))))
  rw [hnone] at hb
  cases hb

/-- An isolation that succeeds leaves a sound heap in which the node has no links and the edges are the bridged ones. -/
theorem isolateNode_spec (hs : h.Sound) (hd : h.Directed) (hacyclic : ∀ a, ¬ TransGen h.AnyEdge a a)
    (hn : n < h.nodeCount) {inOrder : Enumeration} {outOrder : NodeId → Enumeration}
    (hr : GraphUtils.isolateNode inOrder outOrder (some n) ioMap h = some (true, h')) :
    h'.Sound ∧ (∀ a, h'.owner a = n → h'.peers a = []) ∧ ∀ u v, h'.AnyEdge u v ↔ h.Bridged n ioMap u v := by
  have hloop := noLoop hs hd (hacyclic n)
  have hmade : ∀ a b, h.AnyEdge a b → a < h.nodeCount ∧ b < h.nodeCount := by
    rintro a b ⟨x, y, hy, -, rfl, rfl, -⟩
    exact ⟨(hs.symm.held hs.peersHeld hy).1, (hs.peersHeld x y hy).1⟩
  have hself : ∀ a, ¬ h.AnyEdge a a := fun a ha => hacyclic a (.single ha)
  have hin : ∀ a ∈ Node.getInNodes h n, a ≠ n ∧ a < h.nodeCount := by
    intro a ha
    have hedge := edge_of_inNode hs hd hn ha
    refine ⟨?_, (hmade a n hedge).1⟩
    rintro rfl
    exact hself a hedge
  have hout : ∀ b ∈ Node.getOutNodes h n, b ≠ n ∧ b < h.nodeCount := by
    intro b hb
    have hedge := edge_of_outNode hs hd hn hb
    refine ⟨?_, (hmade n b hedge).2⟩
    rintro rfl
    exact hself b hedge
  have hne : ∀ a ∈ Node.getInNodes h n, ∀ b ∈ Node.getOutNodes h n, a ≠ b := by
    rintro a ha b hb rfl
    exact hacyclic a (.tail (.single (edge_of_inNode hs hd hn ha)) (edge_of_outNode hs hd hn hb))
  unfold GraphUtils.isolateNode at hr
  simp only [Cmd.get_bind_apply] at hr
  obtain ⟨r, h₁, hrelink, hr⟩ := Cmd.bind_eq_some.mp hr
  cases r with
  | none => simp at hr
  | some pairs =>
    obtain ⟨rfl, hi₁⟩ := relinkDataIO_spec hs hd hn hloop hrelink
    obtain ⟨ok, h₂, hcontrol, hr⟩ := Cmd.bind_eq_some.mp hr
    cases ok with
    | false => simp at hr
    | true =>
      obtain ⟨R, hi₂, hsub, hnew, hjoined⟩ := relinkControlNodeIfNeed_spec hin hout hne (inOrder.mem _)
        (fun a b => (outOrder a).mem _ b) hi₁ hcontrol
      obtain ⟨u, h₃, hunlink, hr⟩ := Cmd.bind_eq_some.mp hr
      obtain rfl : h₃ = h' := by simpa using hr
      obtain ⟨hi₃, hempty⟩ := unlinkAll_spec hloop hn hi₂ hunlink
      refine ⟨hi₃.sound, hempty, fun u v => ?_⟩
      by_cases hu : u = n
      · refine iff_of_false ?_ fun hb => hb.1 hu
        rintro ⟨a, b, hb, -, ha, -⟩
        rw [hempty a (ha.trans hu)] at hb
        cases hb
      by_cases hv : v = n
      · refine iff_of_false ?_ fun hb => hb.2.1 hv
        rintro ⟨a, b, hb, -, -, hbv, -⟩
        have hback := hi₃.sound.symm.mem hb
        rw [hempty b (hbv.trans hv)] at hback
        cases hback
      rw [hi₃.away u v hu hv]
      constructor
      · rintro (hedge | hpair)
        · exact ⟨hu, hv, .inl hedge⟩
        · rcases hnew _ hpair with hmoved | hboth
          · exact ⟨hu, hv, .inr (.inr hmoved)⟩
          · exact ⟨hu, hv, .inr (.inl hboth)⟩
      · rintro ⟨-, -, hedge | ⟨ha, hb⟩ | hmoved⟩
        · exact .inl hedge
        · exact hjoined u ha v hb
        · exact .inr (hsub hmoved)

/-- The edges after an isolation are around the node. -/
theorem around (hs : h.Sound) (hd : h.Directed) (hn : n < h.nodeCount) :
    (∀ u v, h'.AnyEdge u v ↔ h.Bridged n ioMap u v) → Contract.Around h.AnyEdge h'.AnyEdge n := by
  intro hedges
  refine ⟨fun u v huv => ((hedges u v).mp huv).1, fun u v huv => ((hedges u v).mp huv).2.1,
    fun u v hu hv huv => (hedges u v).mpr ⟨hu, hv, .inl huv⟩, fun u v huv => ?_⟩
  obtain ⟨-, -, hedge | ⟨ha, hb⟩ | hmoved⟩ := (hedges u v).mp huv
  · exact .inl hedge
  · exact .inr ⟨edge_of_inNode hs hd hn ha, edge_of_outNode hs hd hn hb⟩
  · exact .inr (edge_of_relinkPairs hs hd _ (ownAnchors hs.laid hn) (fun _ _ => List.Subset.refl _) (u, v) hmoved)

end IsolateAux

open IsolateAux

/-- In a graph without cycles an isolation that succeeds keeps what is reached, exactly when there are paths past the
node. -/
theorem isolate_iff (h h' : Heap) (n : NodeId) (ioMap : List Int) (inOrder : Enumeration)
    (outOrder : NodeId → Enumeration) (hs : h.Sound) (hd : h.Directed) (hacyclic : ∀ a, ¬ TransGen h.AnyEdge a a)
    (hn : n < h.nodeCount) (hr : GraphUtils.isolateNode inOrder outOrder (some n) ioMap h = some (true, h')) :
    h.IsolatedFrom h' n ↔ h.PathsPast n ioMap := by
  obtain ⟨-, hempty, hedges⟩ := isolateNode_spec hs hd hacyclic hn hr
  have haround := around hs hd hn hedges
  have hself : ¬ h.AnyEdge n n := fun hnn => hacyclic n (.single hnn)
  have hpast : h.PathsPast n ioMap ↔ ∀ a b, h.AnyEdge a n → h.AnyEdge n b → TransGen h'.AnyEdge a b := by
    have heq : h'.AnyEdge = h.Bridged n ioMap := by
      funext u v
      exact propext (hedges u v)
    rw [heq]
    rfl
  rw [hpast, ← haround.iff hself]
  exact ⟨fun hisolated => hisolated.reach, fun hreach => ⟨hempty, hreach, haround.acyclic hacyclic⟩⟩

namespace IsolationWitness

/-- Each item once, where it is listed last. -/
def inListOrder : Enumeration := ⟨List.dedup, nodup_dedup, fun _ _ => mem_dedup⟩

/-- A chain of three nodes: an output of the first feeds the second. Control anchors come first. -/
def feeding : List LinkCall :=
  [.newOp { opDef := { name := "a", type := "Data" }, outputsDesc := [{}] }, .newNode 0,
    .newOp { opDef := { name := "n", type := "Relu" }, inputsDesc := [{}], outputsDesc := [{}] }, .newNode 1,
    .newOp { opDef := { name := "b", type := "Relu" }, inputsDesc := [{}] }, .newNode 2,
    .addDataEdge (some 2) (some 5)]

/-- The output of the second feeds the third. -/
def dataChain : Heap := (LinkCall.runAll (feeding ++ [.addDataEdge (some 6) (some 9)])).getD .empty

/-- The output of the second is linked to the control input of the third. -/
def controlChain : Heap := (LinkCall.runAll (feeding ++ [.addDataControlEdge (some 6) (some 7)])).getD .empty

theorem sound_dataChain : dataChain.Sound :=
  sound_runAll (feeding ++ [.addDataEdge (some 6) (some 9)]) dataChain (by decide +kernel) rfl

theorem sound_controlChain : controlChain.Sound :=
  sound_runAll (feeding ++ [.addDataControlEdge (some 6) (some 7)]) controlChain (by decide +kernel) rfl

theorem isolate_iff_dataChain :
    ∃ h', GraphUtils.isolateNode inListOrder (fun _ => inListOrder) (some 1) [0] dataChain = some (true, h') ∧
      (dataChain.IsolatedFrom h' 1 ↔ dataChain.PathsPast 1 [0]) :=
  have ⟨h', hr, _⟩ : ∃ h', GraphUtils.isolateNode inListOrder (fun _ => inListOrder) (some 1) [0] dataChain = some (true, h') ∧
    True :=
    Cmd.exists_of_decide (by decide +kernel)
  ⟨h', hr, isolate_iff dataChain h' 1 [0] inListOrder (fun _ => inListOrder) sound_dataChain
    (sound_dataChain.forall_peers (by decide +kernel)) (acyclic_of_lt sound_dataChain (by decide +kernel))
    (by decide +kernel) hr⟩

/-- The control input an output is linked to does not make its node an out node, and nothing is linked past the isolated
node. -/
theorem isolate_false :
    ¬ ∀ (h h' : Heap) (n : NodeId) (ioMap : List Int) (inOrder : Enumeration) (outOrder : NodeId → Enumeration),
      h.Sound → h.Directed → (∀ a, ¬ TransGen h.AnyEdge a a) → n < h.nodeCount →
      GraphUtils.isolateNode inOrder outOrder (some n) ioMap h = some (true, h') → h.IsolatedFrom h' n := by
  intro hall
  have hs := sound_controlChain
  have hd : controlChain.Directed := hs.forall_peers (by decide +kernel)
  have hacyclic : ∀ a, ¬ TransGen controlChain.AnyEdge a a := acyclic_of_lt hs (by decide +kernel)
  have hn : 1 < controlChain.nodeCount := by decide +kernel
  obtain ⟨h', hr, hcount, hnone⟩ : ∃ h', GraphUtils.isolateNode inListOrder (fun _ => inListOrder) (some 1) [0]
      controlChain = some (true, h') ∧ h'.anchorCount = 10 ∧ ∀ a < 10, h'.peers a = [] :=
    ⟨_, rfl, by decide +kernel, by decide +kernel⟩
  have hin : controlChain.AnyEdge 0 1 :=
    ⟨2, 5, by decide +kernel, by decide +kernel, by decide +kernel, by decide +kernel, rfl⟩
  have hout : controlChain.AnyEdge 1 2 :=
    ⟨6, 7, by decide +kernel, by decide +kernel, by decide +kernel, by decide +kernel, rfl⟩
  have hpath : TransGen controlChain.AnyEdge 0 2 := .tail (.single hin) hout
  have hpath' : TransGen h'.AnyEdge 0 2 :=
    ((hall controlChain h' 1 [0] _ _ hs hd hacyclic hn hr).reach 0 2 (by decide) (by decide)).mpr hpath
  have hs' : h'.Sound := (isolateNode_spec hs hd hacyclic hn hr).1
  have hno : ∀ a, ∀ b ∈ h'.peers a, False := hs'.forall_peers fun a ha b hb => by
    rw [hnone a (hcount ▸ ha)] at hb
    cases hb
  obtain ⟨v, ⟨a, b, hb, -⟩, -⟩ := TransGen.head'_iff.mp hpath'
  exact hno a b hb

end IsolationWitness

end Metadef
