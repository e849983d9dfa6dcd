import Metadef.Lemmas.ClosedSteps

/-!
# Removing a node keeps a graph closed

Removing a node drops the constants that feed only it, and isolates it. The graph stays closed when a constant that is dropped
has no other links and is no input or output, and the node leaves no link and no input behind; or where they are listed once
more.
-/

namespace Metadef

open List

open Cmd Heap LinkAux IsolateAux ComputeGraph ClosedAux

/-- A constant that may be dropped with a node: it is listed once more, or it is no input, no output but one of the name of
the node, and only feeds data inputs. -/
def Heap.Droppable (h : Heap) (g : GraphId) (n c : NodeId) : Prop :=
  1 < (h.graph g).nodes.count c ∨
    c ∉ (h.graph g).inputNodes ∧ (∀ p ∈ (h.graph g).outputNodesInfo, p.1 = c → Node.getName h c = Node.getName h n) ∧
      ∀ a ∈ h.inAnchors c ++ h.outAnchors c, ∀ b ∈ h.peers a, h.kind a = .outData ∧ h.kind b = .inData

/-- A node that may be removed from a graph: it is none of its own out nodes; it is listed once more, or it is an input once at
most, its inputs are fed once and its control output controls control inputs only; and the constants with no out node but
the node may be dropped. -/
def Heap.Removable (h : Heap) (g : GraphId) (n : NodeId) : Prop :=
  n ∉ Node.getOutAllNodes h n ∧
    (1 < (h.graph g).nodes.count n ∨
      n ∉ (h.graph g).inputNodes.erase n ∧ (∀ a ∈ h.anchorsOf n .inData, FedOnce h a) ∧
        ∀ b ∈ h.peers (h.node n).outControlAnchor, h.kind b = .inControl) ∧
    ∀ c ∈ (Node.getInDataNodes h n).filter (Node.isConst h),
      (∀ v ∈ Node.getOutDataNodes h c, v = n) →
        OutControlAnchor.getPeerInControlAnchors h (h.node c).outControlAnchor = [] → h.Droppable g n c

instance (h : Heap) (g : GraphId) (n c : NodeId) : Decidable (h.Droppable g n c) := by
  unfold Heap.Droppable
  infer_instance

instance (h : Heap) (g : GraphId) (n : NodeId) : Decidable (h.Removable g n) := by
  unfold Heap.Removable
  infer_instance

namespace ClosedAux

variable {h h' t t' : Heap} {g : GraphId} {n c : NodeId}

/-- The out nodes are the ends of the data links and of the control links of the control output. -/
theorem mem_getOutNodes {v : NodeId} :
    v ∈ Node.getOutNodes h n ↔ (∃ a ∈ (h.node n).outDataAnchors, ∃ b ∈ h.peers a, h.kind b = .inData ∧ h.owner b = v) ∨
      ∃ b ∈ h.peers (h.node n).outControlAnchor, h.kind b = .inControl ∧ h.owner b = v := by
  simp only [Node.getOutNodes, Node.getOutDataNodes, OutDataAnchor.getPeerInDataAnchors,
    OutControlAnchor.getPeerInControlAnchors, Anchor.getPeersOf, mem_append, List.mem_map, mem_flatMap,
    mem_filter, decide_eq_true_eq]
  refine or_congr ⟨?_, ?_⟩ ⟨?_, ?_⟩
  · rintro ⟨b, ⟨a, ha, hb, hk⟩, hv⟩
    exact ⟨a, ha, b, hb, hk, hv⟩
  · rintro ⟨a, ha, b, hb, hk, hv⟩
    exact ⟨b, ⟨a, ha, hb, hk⟩, hv⟩
  · rintro ⟨b, ⟨hb, hk⟩, hv⟩
    exact ⟨b, hb, hk, hv⟩
  · rintro ⟨b, hb, hk, hv⟩
    exact ⟨b, ⟨hb, hk⟩, hv⟩

/-- What the loop over the constants leaves: links only go, those to data inputs of the node; the counter is that of the nodes;
constants that still have out nodes and the node are listed as often as before, and those that are listed no more have no links;
and the inputs and outputs are listed, but for outputs of the name of the node. -/
structure Pruned (h : Heap) (g : GraphId) (n : NodeId) (t : Heap) : Prop where
  layout : SameLayout h t
  op : t.op = h.op
  opCount : t.opCount = h.opCount
  nodes : (t.graph g).nodes.Sublist (h.graph g).nodes
  dropped : ∀ a, t.owner a ∈ (h.graph g).nodes → t.owner a ∉ (t.graph g).nodes → t.peers a = []
  inside : Inside t (t.graph g).nodes
  size : (t.graph g).directNodesSize = (t.graph g).nodes.length
  inputs : (t.graph g).inputNodes = (h.graph g).inputNodes
  outputs : (t.graph g).outputNodesInfo = (h.graph g).outputNodesInfo
  sub : ∀ a, (t.peers a).Sublist (h.peers a)
  lost : ∀ a, ∀ b ∈ h.peers a,
    b ∈ t.peers a ∨ (h.owner a = n ∧ h.kind a = .inData) ∨ (h.owner b = n ∧ h.kind b = .inData)
  count : ∀ x, x = n ∨ Node.getOutNodes t x ≠ [] → (t.graph g).nodes.count x = (h.graph g).nodes.count x
  inputsListed : ∀ x ∈ (h.graph g).inputNodes, x ∈ (t.graph g).nodes
  outputsListed : ∀ p ∈ (h.graph g).outputNodesInfo, p.1 ∈ (t.graph g).nodes ∨ Node.getName h p.1 = Node.getName h n

theorem Kept.pruned (hk : Kept h g) (n : NodeId) : Pruned h g n h where
  layout := SameLayout.refl h
  op := rfl
  opCount := rfl
  nodes := List.Sublist.refl _
  dropped _ hin hout := absurd hin hout
  inside := hk.inside
  size := hk.size
  inputs := rfl
  outputs := rfl
  sub _ := List.Sublist.refl _
  lost _ _ hb := .inl hb
  count _ _ := rfl
  inputsListed := hk.inputs
  outputsListed p hp := .inl (hk.outputs p hp)

variable {x : NodeId} {a : AnchorId} {N : List NodeId} {ok : Bool} {node : Option NodeId} {v : Heap}

/-- Fewer links make fewer out nodes. -/
theorem getOutNodes_ne_nil (hl : SameLayout t t') (hsub : ∀ a, (t'.peers a).Sublist (t.peers a))
    (hx : Node.getOutNodes t' x ≠ []) : Node.getOutNodes t x ≠ [] := by
  obtain ⟨v, hv⟩ := exists_mem_of_ne_nil _ hx
  refine ne_nil_of_mem (a := v) (mem_getOutNodes.mpr ?_)
  rcases mem_getOutNodes.mp hv with ⟨a, ha, b, hb, hk, hv⟩ | ⟨b, hb, hk, hv⟩
  · rw [hl.node] at ha
    exact .inl ⟨a, ha, b, (hsub a).subset hb, (hl.kind b).symm.trans hk, (hl.owner b).symm.trans hv⟩
  · rw [hl.node] at hb
    exact .inr ⟨b, (hsub _).subset hb, (hl.kind b).symm.trans hk, (hl.owner b).symm.trans hv⟩

/-- Unlinking a data input of the node. -/
theorem Pruned.unlink (hp : Pruned h g n t) {s : AnchorId} (ha : h.owner a = n) (hka : h.kind a = .inData)
    (hr : Anchor.unlink s (some a) t = some (true, t')) : Pruned h g n t' ∧ t'.graph = t.graph := by
  obtain ⟨-, -, hl, hpeers⟩ := unlink_true hp.inside.sound hr
  have hsub : ∀ x, (t'.peers x).Sublist (t.peers x) := by
    intro x
    rw [hpeers]
    split
    · rename_i hx
      exact hx ▸ erase_sublist
    · split
      · rename_i hx
        exact hx ▸ erase_sublist
      · exact List.Sublist.refl _
  have hw : Within False n (t.graph g).nodes t t' := stays_unlink s (some a) t true t' (.refl hp.inside) hr
  have hgraph := hw.frame.2
  have hdropped : ∀ x, t'.owner x ∈ (h.graph g).nodes → t'.owner x ∉ (t'.graph g).nodes → t'.peers x = [] := by
    intro x hin hout
    rw [hl.owner] at hin hout
    rw [hgraph] at hout
    exact sublist_nil.mp (hp.dropped x hin hout ▸ hsub x)
  refine ⟨⟨hp.layout.trans hl, hw.frame.1.trans hp.op, hw.opCount.trans hp.opCount, hgraph ▸ hp.nodes, hdropped,
    hgraph ▸ hw.inside, hgraph ▸ hp.size, hgraph ▸ hp.inputs, hgraph ▸ hp.outputs, fun x => (hsub x).trans (hp.sub x),
    fun x b hb => ?_, fun x hx => ?_, hgraph ▸ hp.inputsListed,
    hgraph ▸ hp.outputsListed⟩, hgraph⟩
  · rcases hp.lost x b hb with hb' | hlost
    · by_cases hxa : x = a
      · exact .inr (.inl (hxa ▸ ⟨ha, hka⟩))
      · by_cases hba : b = a
        · exact .inr (.inr (hba ▸ ⟨ha, hka⟩))
        · refine .inl ?_
          rw [hpeers, if_neg hxa]
          split
          · rename_i hxs
            exact (mem_erase_of_ne hba).mpr (hxs ▸ hb')
          · exact hb'
    · exact .inr hlost
  · rw [hgraph]
    exact hp.count x (hx.imp_right (getOutNodes_ne_nil hl hsub))

/-- A constant left without out nodes has no links, when it may be dropped and is listed once. -/
theorem Pruned.linkless (hp : Pruned h g n t) (hc : Node.getOutNodes t c = [])
    (honly : ∀ a ∈ h.inAnchors c ++ h.outAnchors c, ∀ b ∈ h.peers a, h.kind a = .outData ∧ h.kind b = .inData) :
    ∀ a, t.owner a = c → t.peers a = [] := by
  intro a ha
  refine eq_nil_iff_forall_not_mem.mpr fun b hb => ?_
  have hheld := hp.inside.sound.symm.held hp.inside.sound.peersHeld hb
  have hl := hp.inside.sound.laid
  have hmade : c < t.nodeCount := ha ▸ hheld.1
  have hmem : a ∈ h.inAnchors c ++ h.outAnchors c := by
    unfold inAnchors outAnchors
    rw [← hp.layout.anchorsOf, ← hp.layout.anchorsOf, ← hp.layout.anchorsOf, ← hp.layout.anchorsOf]
    cases hk : (t.kind a).isIn with
    | false => exact mem_append_right _ ((mem_outAnchors hl hmade).mpr ⟨hheld, ha, hk⟩)
    | true => exact mem_append_left _ ((mem_inAnchors hl hmade).mpr ⟨hheld, ha, hk⟩)
  obtain ⟨hka, hkb⟩ := honly a hmem b ((hp.sub a).subset hb)
  have hout : a ∈ (t.node c).outDataAnchors := by
    have := hheld.2
    rw [ha, hp.layout.kind, hka] at this
    exact this
  have hin : t.owner b ∈ Node.getOutNodes t c :=
    mem_getOutNodes.mpr (.inl ⟨a, hout, b, hb, (hp.layout.kind b).trans hkb, rfl⟩)
  rw [hc] at hin
  cases hin

/-- Before the loop, a constant the loop leaves without out nodes had none but the node. -/
theorem Pruned.onlyFor (hp : Pruned h g n t) (hk : Kept h g) (hc : Node.getOutNodes t c = []) (hcn : c ≠ n)
    (hmade : c < h.nodeCount) : (∀ v ∈ Node.getOutDataNodes h c, v = n) ∧
      OutControlAnchor.getPeerInControlAnchors h (h.node c).outControlAnchor = [] := by
  have hlaid := hk.inside.sound.laid
  have hnone : ∀ v, v ∉ Node.getOutNodes t c := by
    rw [hc]
    exact fun _ => not_mem_nil
  constructor
  · intro v hv
    have hv' : v ∈ Node.getOutNodes h c := mem_append_left _ hv
    unfold Node.getOutDataNodes at hv
    obtain ⟨b, hb, rfl⟩ := List.mem_map.mp hv
    obtain ⟨a, ha, hb⟩ := mem_flatMap.mp hb
    obtain ⟨hb, hkb⟩ := mem_filter.mp hb
    rcases hp.lost a b hb with hb' | ⟨hao, -⟩ | ⟨hbo, -⟩
    · exact absurd (mem_getOutNodes.mpr (.inl ⟨a, congrFun hp.layout.node c ▸ ha, b, hb',
        (hp.layout.kind b).trans (of_decide_eq_true hkb), rfl⟩)) (hnone _)
    · exact absurd ((hlaid.owner c hmade .outData a ha).symm.trans hao) hcn
    · exact hbo
  · refine eq_nil_iff_forall_not_mem.mpr fun b hb => ?_
    obtain ⟨hb, hkb⟩ := mem_filter.mp hb
    have hkb : h.kind b = .inControl := of_decide_eq_true hkb
    rcases hp.lost _ b hb with hb' | ⟨hao, -⟩ | ⟨-, hbk⟩
    · exact hnone _ (mem_getOutNodes.mpr (.inr ⟨b, congrFun hp.layout.node c ▸ hb', (hp.layout.kind b).trans hkb, rfl⟩))
    · exact hcn ((hlaid.owner c hmade .outControl _ mem_cons_self).symm.trans hao)
    · rw [hkb] at hbk
      cases hbk

/-- What is listed stays listed where one place of a node listed twice goes, and where the place of another node goes. -/
theorem mem_erase_of (hx : x ∈ N) (hne : x ≠ c ∨ 1 < N.count c) : x ∈ N.erase c := by
  by_cases hxc : x = c
  · subst hxc
    refine count_pos_iff.mp ?_
    have hcount := hne.resolve_left fun h => h rfl
    rw [count_erase_self]
    omega
  · exact (mem_erase_of_ne hxc).mpr hx

/-- Nodes without links may leave the list. -/
theorem Inside.erase (hi : Inside h N) (hc : 1 < N.count c ∨ ∀ a, h.owner a = c → h.peers a = []) : Inside h (N.erase c) := by
  have hends : ∀ a, ∀ b ∈ h.peers a, h.owner a ≠ c ∨ 1 < N.count c := by
    intro a b hb
    rcases hc with hcount | hnone
    · exact .inr hcount
    · refine .inl fun he => ?_
      rw [hnone a he] at hb
      cases hb
  refine ⟨hi.sound, hi.directed, fun m hm => hi.made m (mem_of_mem_erase hm), fun a b hb => ?_⟩
  refine (hi.links a b hb).imp_right fun hab => ?_
  exact ⟨mem_erase_of hab.1 (hends a b hb), mem_erase_of hab.2 (hends b a (hi.sound.symm.mem hb))⟩

/-- What erasing from the node list does, whether or not the node is listed. -/
theorem eraseFromNodeList_spec {x : ComputeGraph} (hx : x.directNodesSize = x.nodes.length) (c : NodeId) :
    (x.eraseFromNodeList c).nodes = x.nodes.erase c ∧
      (x.eraseFromNodeList c).directNodesSize = (x.eraseFromNodeList c).nodes.length ∧
      (x.eraseFromNodeList c).inputNodes = x.inputNodes ∧ (x.eraseFromNodeList c).outputNodesInfo = x.outputNodesInfo := by
  unfold eraseFromNodeList
  split
  · rename_i hc
    refine ⟨rfl, ?_, rfl, rfl⟩
    rw [hx, length_erase_of_mem hc]
  · rename_i hc
    exact ⟨(erase_of_not_mem hc).symm, hx, rfl, rfl⟩

/-- Dropping a constant that may be dropped. -/
theorem Pruned.drop (hp : Pruned h g n t) (hc : Node.getOutNodes t c = []) (hcn : c ≠ n)
    (hcount : (t.graph g).nodes.count c = (h.graph g).nodes.count c) (hd : h.Droppable g n c) :
    Pruned h g n (t.setGraph g ((t.graph g).eraseFromNodeList c)) := by
  obtain ⟨hnodes, hsize, hinputs, houtputs⟩ := eraseFromNodeList_spec hp.size c
  have hgraph : (t.setGraph g ((t.graph g).eraseFromNodeList c)).graph g = (t.graph g).eraseFromNodeList c := by
    rw [setGraph_graph, if_pos rfl]
  have hgone : 1 < (t.graph g).nodes.count c ∨ ∀ a, t.owner a = c → t.peers a = [] := by
    rcases hd with hd | ⟨-, -, honly⟩
    · exact .inl (hcount ▸ hd)
    · exact .inr (hp.linkless hc honly)
  have hlayout : SameLayout t (t.setGraph g ((t.graph g).eraseFromNodeList c)) :=
    ⟨rfl, rfl, rfl, fun _ => rfl, fun _ => rfl, fun _ => rfl⟩
  refine ⟨hp.layout.trans hlayout, hp.op, hp.opCount, ?_, fun a hin hout => ?_, ?_, ?_, ?_, ?_, hp.sub, hp.lost, fun x hx => ?_,
    fun x hx => ?_, fun p hp' => ?_⟩
  · rw [hgraph, hnodes]
    exact erase_sublist.trans hp.nodes
  · rw [hgraph, hnodes] at hout
    by_cases hac : t.owner a = c
    · rcases hgone with htwice | hnone
      · exact absurd (hac.symm ▸ mem_erase_of (count_pos_iff.mp (Nat.lt_of_succ_lt htwice)) (.inr htwice)) hout
      · exact hnone a hac
    · exact hp.dropped a hin fun hmem => hout ((mem_erase_of_ne hac).mpr hmem)
  · rw [hgraph, hnodes]
    exact (hp.inside.erase hgone).setGraph _
  · rw [hgraph]
    exact hsize
  · rw [hgraph, hinputs]
    exact hp.inputs
  · rw [hgraph, houtputs]
    exact hp.outputs
  · have hne : x ≠ c := by
      rintro rfl
      rcases hx with rfl | hx
      · exact hcn rfl
      · exact hx hc
    rw [hgraph, hnodes, count_erase_of_ne hne]
    exact hp.count x hx
  · rw [hgraph, hnodes]
    refine mem_erase_of (hp.inputsListed x hx) ?_
    rcases hd with hd | ⟨hin, -, -⟩
    · exact .inr (hcount ▸ hd)
    · exact .inl fun he => hin (he ▸ hx)
  · rw [hgraph, hnodes]
    rcases hp.outputsListed p hp' with hin | hname
    · by_cases hpc : p.1 = c
      · rcases hd with hd | ⟨-, hout, -⟩
        · exact .inl (mem_erase_of hin (.inr (hcount ▸ hd)))
        · exact .inr ((congrArg (Node.getName h) hpc).trans (hout p hp' hpc))
      · exact .inl (mem_erase_of hin (.inl hpc))
    · exact .inr hname

/-- One round of the loop over the constants. -/
theorem Pruned.removeConstInputAt (hp : Pruned h g n t) (hk : Kept h g) (hn : n < h.nodeCount) (hr : h.Removable g n)
    (ha : a ∈ h.anchorsOf n .inData) (hpeers : t.peers a = h.peers a)
    (hround : ComputeGraph.removeConstInputAt g a t = some (ok, t')) :
    Pruned h g n t' ∧ ∀ b, h.owner b = n → b ≠ a → t'.peers b = t.peers b := by
  have hlaid := hk.inside.sound.laid
  have hao : h.owner a = n := hlaid.owner n hn .inData a ha
  have hka : h.kind a = .inData := hlaid.kind n hn .inData a ha
  have hloop : NoLoop h n := noLoop_of_not_mem hk.inside.sound hk.inside.directed hn hr.1
  rw [ComputeGraph.removeConstInputAt, get_bind_apply] at hround
  cases hsource : InDataAnchor.getPeerOutAnchor t a with
  | none =>
    obtain ⟨-, rfl⟩ : true = ok ∧ t = t' := by simpa [hsource] using hround
    exact ⟨hp, fun _ _ _ => rfl⟩
  | some s =>
    obtain ⟨hsmem, hks⟩ := of_getPeerOutAnchor hsource
    simp only [hsource] at hround
    cases hconst : Node.isConst t (t.owner s) with
    | false =>
      obtain ⟨-, rfl⟩ : true = ok ∧ t = t' := by simpa [hconst] using hround
      exact ⟨hp, fun _ _ _ => rfl⟩
    | true =>
      simp only [hconst, Bool.not_true, Bool.false_eq_true, if_false] at hround
      obtain ⟨ok', m, hremove, hrest⟩ := bind_eq_some.mp hround
      have hm : Anchor.unlink s (some a) t = some (ok', m) := hremove
      cases ok' with
      | false =>
        obtain ⟨-, rfl⟩ := of_return hrest
        rcases unlink_cases hm with ⟨-, rfl⟩ | ⟨hfalse, -⟩
        · exact ⟨hp, fun _ _ _ => rfl⟩
        · cases hfalse
      | true =>
        have hcn : t.owner s ≠ n := by
          rw [hp.layout.owner]
          exact hloop a s hao (hpeers ▸ hsmem)
        obtain ⟨hpm, hgraph⟩ := hp.unlink hao hka hm
        obtain ⟨-, -, hlayout, hmpeers⟩ := unlink_true hp.inside.sound hm
        have hsame : ∀ b, h.owner b = n → b ≠ a → m.peers b = t.peers b := by
          intro b hb hba
          have hbs : b ≠ s := by
            rintro rfl
            exact hcn ((hp.layout.owner b).trans hb)
          rw [hmpeers, if_neg hba, if_neg hbs]
        obtain ⟨-, rfl⟩ : true = ok ∧ (if (Node.getOutNodes m (t.owner s)).isEmpty then
            m.setGraph g ((m.graph g).eraseFromNodeList (t.owner s)) else m) = t' := by simpa using hrest
        split
        · rename_i hempty
          have hnone : Node.getOutNodes m (t.owner s) = [] := List.isEmpty_iff.mp hempty
          have howner : t.owner s = h.owner s := hp.layout.owner s
          have hheld : h.Held s := hk.inside.sound.peersHeld a s (hpeers ▸ hsmem)
          -- the constant had an out node before it was unlinked, so it was not dropped before
          have hfed : Node.getOutNodes t (t.owner s) ≠ [] := by
            have hout : s ∈ (t.node (t.owner s)).outDataAnchors := by
              have := hheld.2
              rw [← howner, ← hp.layout.kind, hks, ← hp.layout.anchorsOf] at this
              exact this
            refine ne_nil_of_mem (mem_getOutNodes.mpr (.inl ⟨s, hout, a, hp.inside.sound.symm.mem hsmem, ?_, rfl⟩))
            rw [hp.layout.kind, hka]
          have hcount : (m.graph g).nodes.count (t.owner s) = (h.graph g).nodes.count (t.owner s) := by
            rw [hgraph]
            exact hp.count _ (.inr hfed)
          obtain ⟨honly, hcontrol⟩ := hpm.onlyFor hk hnone hcn (howner ▸ hheld.1)
          have hsource' : InDataAnchor.getPeerOutAnchor h a = some s := by
            rw [← hsource]
            unfold InDataAnchor.getPeerOutAnchor
            rw [hpeers]
            simp only [hp.layout.kind]
          have hconst' : Node.isConst h (t.owner s) = true := by
            rw [← hconst]
            unfold Node.isConst Node.getType Heap.desc
            rw [hp.op, hp.layout.node]
          have hdrop : h.Droppable g n (t.owner s) := by
            refine hr.2.2 _ (mem_filter.mpr ⟨?_, hconst'⟩) honly hcontrol
            exact List.mem_map.mpr ⟨s, mem_filterMap.mpr ⟨a, ha, hsource'⟩, howner.symm⟩
          exact ⟨hpm.drop hnone hcn hcount hdrop, hsame⟩
        · exact ⟨hpm, hsame⟩

/-- The loop over the constants. -/
theorem Pruned.removeConstInputs (hk : Kept h g) (hn : n < h.nodeCount) (hr : h.Removable g n) (l : List AnchorId)
    (hnodup : l.Nodup) (hl : ∀ a ∈ l, a ∈ h.anchorsOf n .inData) :
    ∀ {t ok t'}, Pruned h g n t → (∀ a ∈ l, t.peers a = h.peers a) →
      Cmd.eachOk (ComputeGraph.removeConstInputAt g) l t = some (ok, t') → Pruned h g n t' := by
  induction l with
  | nil =>
    intro t ok t' hp _ hloop
    obtain ⟨-, rfl⟩ := of_return hloop
    exact hp
  | cons a l ih =>
    intro t ok t' hp hpeers hloop
    obtain ⟨hal, hnodup⟩ := nodup_cons.mp hnodup
    obtain ⟨ok', m, hm, hrest⟩ := bind_eq_some.mp hloop
    obtain ⟨hpm, hsame⟩ := hp.removeConstInputAt hk hn hr (hl a mem_cons_self) (hpeers a mem_cons_self) hm
    cases ok' with
    | false =>
      obtain ⟨-, rfl⟩ := of_return hrest
      exact hpm
    | true =>
      refine ih hnodup (fun b hb => hl b (mem_cons_of_mem a hb)) hpm (fun b hb => ?_) (by simpa using hrest)
      have hbo : h.owner b = n :=
        hk.inside.sound.laid.owner n hn .inData b (hl b (mem_cons_of_mem a hb))
      rw [hsame b hbo fun he => hal (he ▸ hb)]
      exact hpeers b (mem_cons_of_mem a hb)

/-! ## Inputs and outputs -/

theorem setGraph_self (h : Heap) (g : GraphId) : h.setGraph g (h.graph g) = h := by
  unfold Heap.setGraph
  rw [Function.update_eq_self]

/-- Removing an input edits the inputs of the graph. -/
theorem removeInputNode_spec (hr : removeInputNode g (some n) h = some (ok, h')) :
    h' = h.setGraph g { h.graph g with inputNodes := (h.graph g).inputNodes.erase n } := by
  simp only [removeInputNode, get_bind_apply, edit] at hr
  split at hr
  · rename_i hn
    obtain ⟨-, rfl⟩ := of_return hr
    rw [erase_of_not_mem hn]
    exact (setGraph_self h g).symm
  · obtain ⟨-, rfl⟩ := of_return hr
    rfl

/-- Removing an output edits the outputs of the graph. -/
theorem removeOutputNode_spec (hr : removeOutputNode g (some n) h = some (ok, h')) : h' = h.setGraph g { h.graph g with
      outputNodesInfo := (h.graph g).outputNodesInfo.filter fun item => Node.getName h n ≠ Node.getName h item.1 } := by
  simp only [removeOutputNode, get_bind_apply, edit, modify_bind_apply, pure_apply, Option.some.injEq, Prod.mk.injEq] at hr
  exact hr.2.symm

/-- A graph with fewer inputs and outputs. -/
theorem Kept.fewer (hk : Kept h g) {x : ComputeGraph} (hnodes : x.nodes = (h.graph g).nodes)
    (hsize : x.directNodesSize = (h.graph g).directNodesSize) (hinputs : x.inputNodes ⊆ (h.graph g).inputNodes)
    (houtputs : x.outputNodesInfo ⊆ (h.graph g).outputNodesInfo) : Kept (h.setGraph g x) g := by
  have hgraph : (h.setGraph g x).graph g = x := by rw [setGraph_graph, if_pos rfl]
  refine ⟨?_, ?_, fun y hy => ?_, fun p hp => ?_⟩
  · rw [hgraph, hnodes]
    exact hk.inside.setGraph x
  · rw [hgraph, hnodes, hsize, hk.size]
  · rw [hgraph] at hy ⊢
    exact hnodes ▸ hk.inputs y (hinputs hy)
  · rw [hgraph] at hp ⊢
    exact hnodes ▸ hk.outputs p (houtputs hp)

theorem kept_removeInputNode (hk : Kept h g) (hr : removeInputNode g node h = some (ok, h')) : Kept h' g := by
  cases node with
  | none =>
    obtain ⟨-, rfl⟩ := of_return hr
    exact hk
  | some n =>
    rw [removeInputNode_spec hr]
    exact hk.fewer rfl rfl erase_subset (List.Subset.refl _)

theorem kept_removeOutputNode (hk : Kept h g) (hr : removeOutputNode g node h = some (ok, h')) : Kept h' g := by
  cases node with
  | none =>
    obtain ⟨-, rfl⟩ := of_return hr
    exact hk
  | some n =>
    rw [removeOutputNode_spec hr]
    exact hk.fewer rfl rfl (List.Subset.refl _) (filter_subset_self _)

/-! ## Removing a node -/

/-- The constants of a node the graph does not list are not listed either. -/
theorem stays_removeConstInput {c : Prop} (hn : n < h.nodeCount) (hout : n ∉ (h.graph g).nodes) :
    Stays c n (h.graph g).nodes h (removeConstInput g n) := by
  refine Stays.get fun m hw => Stays.eachOk fun a ha => Stays.get fun t ht => ?_
  cases hsource : InDataAnchor.getPeerOutAnchor t a with
  | none => exact Keeps.pure true
  | some s =>
    refine Keeps.ite (fun _ => Keeps.pure true) fun _ => (stays_unlink s (some a)).andThen ?_
    have hao : t.owner a = n := by
      rw [ht.layout.owner]
      exact hw.inside.sound.laid.owner n (hw.layout.nodeCount ▸ hn) .inData a ha
    have hso : t.owner s = n := by
      rcases ht.inside.links a s (of_getPeerOutAnchor hsource).1 with he | hin
      · exact he.symm.trans hao
      · exact absurd (hao ▸ hin.1) hout
    intro u ok u' hu hr
    have hgraph : (u.graph g).eraseFromNodeList n = u.graph g := by
      unfold eraseFromNodeList
      rw [hu.frame.2, ht.frame.2, hw.frame.2, if_neg hout]
    simp only [modify_bind_apply, pure_apply, Option.some.injEq, Prod.mk.injEq, hso, hgraph, setGraph_self, ite_self] at hr
    exact hr.2 ▸ hu

/-- Erasing a node leaves a graph closed when the node is listed once more, or has no links and is no input; it is no output. -/
theorem kept_eraseNode (hk : Kept h g)
    (hgone : 1 < (h.graph g).nodes.count n ∨ (n ∉ (h.graph g).inputNodes ∧ ∀ a, h.owner a = n → h.peers a = []))
    (hout : ∀ p ∈ (h.graph g).outputNodesInfo, p.1 ≠ n) :
    Kept (h.setGraph g ((h.graph g).eraseFromNodeList n)) g := by
  obtain ⟨hnodes, hsize, hinputs, houtputs⟩ := eraseFromNodeList_spec hk.size n
  have hgraph : (h.setGraph g ((h.graph g).eraseFromNodeList n)).graph g = (h.graph g).eraseFromNodeList n := by
    rw [setGraph_graph, if_pos rfl]
  refine ⟨?_, ?_, fun x hx => ?_, fun p hp => ?_⟩
  · rw [hgraph, hnodes]
    exact (hk.inside.erase (hgone.imp_right And.right)).setGraph _
  · rw [hgraph]
    exact hsize
  · rw [hgraph] at hx ⊢
    rw [hinputs] at hx
    rw [hnodes]
    refine mem_erase_of (hk.inputs x hx) ?_
    rcases hgone with htwice | ⟨hin, -⟩
    · exact .inr htwice
    · exact .inl fun he => hin (he ▸ hx)
  · rw [hgraph] at hp ⊢
    rw [houtputs] at hp
    rw [hnodes]
    exact mem_erase_of (hk.outputs p hp) (.inl (hout p hp))

/-- The graph without the first place of a node among the inputs and without the outputs of its name. -/
def withoutEnds (h : Heap) (n : NodeId) (x : ComputeGraph) : ComputeGraph :=
  { x with
    inputNodes := x.inputNodes.erase n
    outputNodesInfo := x.outputNodesInfo.filter fun item => Node.getName h n ≠ Node.getName h item.1 }

/-- What `RemoveNode` does before it isolates the node. -/
theorem removeEnds_spec {u : Heap} {ok' : Bool} (hu : removeInputNode g (some n) t = some (ok, u))
    (hv : removeOutputNode g (some n) u = some (ok', v)) :
    SameLayout t v ∧ (v.op = t.op ∧ v.opCount = t.opCount) ∧ v.peers = t.peers ∧ v.graph g = withoutEnds t n (t.graph g) ∧
      ∀ {N}, Inside t N → Inside v N := by
  have hname : ∀ x, Node.getName u x = Node.getName t x := by
    intro x
    rw [removeInputNode_spec hu]
    rfl
  have hvt := removeOutputNode_spec hv
  simp only [hname] at hvt
  rw [removeInputNode_spec hu] at hvt
  rw [hvt]
  refine ⟨⟨rfl, rfl, rfl, fun _ => rfl, fun _ => rfl, fun _ => rfl⟩, ⟨rfl, rfl⟩, rfl, ?_, fun hi => (hi.setGraph _).setGraph _⟩
  simp [withoutEnds]

/-- Without these ends, what the loop over the constants leaves is closed. -/
theorem Pruned.kept (hp : Pruned h g n t) (hi : Inside v (t.graph g).nodes)
    (hgraph : v.graph g = withoutEnds h n (t.graph g)) : Kept v g := by
  refine ⟨?_, ?_, fun x hx => ?_, fun p hp' => ?_⟩
  · rw [hgraph]
    exact hi
  · rw [hgraph]
    exact hp.size
  · rw [hgraph] at hx ⊢
    exact hp.inputsListed x (hp.inputs ▸ mem_of_mem_erase hx)
  · rw [hgraph] at hp' ⊢
    obtain ⟨hmem, hne⟩ := mem_filter.mp hp'
    exact (hp.outputsListed p (hp.outputs ▸ hmem)).resolve_right fun he => by simp [he] at hne

/-- The nodes a graph does not list have no links. -/
def Linkless (h : Heap) (g : GraphId) : Prop := ∀ a, h.owner a ∉ (h.graph g).nodes → h.peers a = []

/-- What removing a node leaves: the layout and the descriptors, fewer nodes, and a closed graph. A node that was removed is not listed
more, and the nodes that are not have no links if those before had none. -/
structure Shrunk (h : Heap) (g : GraphId) (n : NodeId) (ok : Bool) (h' : Heap) : Prop where
  kept : Kept h' g
  layout : SameLayout h h'
  op : h'.op = h.op
  opCount : h'.opCount = h.opCount
  nodes : (h'.graph g).nodes.Sublist (h.graph g).nodes
  listed : ok = true → n ∈ (h.graph g).nodes
  removed : ok = true → (h.graph g).nodes.Nodup → n ∉ (h'.graph g).nodes
  linkless : Linkless h g → Linkless h' g

/-- Removing a node the graph does not list. -/
theorem removeNode_absent_spec (hk : Kept h g) (hn : n < h.nodeCount) (hout : n ∉ (h.graph g).nodes)
    (hr : removeNode g (some n) h = some (ok, h')) : Shrunk h g n ok h' := by
  rw [removeNode] at hr
  obtain ⟨ok₁, t, ht, hr⟩ := bind_eq_some.mp hr
  obtain ⟨ok₂, u, hu, hr⟩ := bind_eq_some.mp hr
  obtain ⟨ok₃, v, hv, hr⟩ := bind_eq_some.mp hr
  obtain ⟨ok₄, w, hw, hr⟩ := bind_eq_some.mp hr
  have hwt : Within (NoLoop h n) n (h.graph g).nodes h t := stays_removeConstInput hn hout h ok₁ t (.refl hk.inside) ht
  have hkv : Kept v g := kept_removeOutputNode (kept_removeInputNode (hk.within hwt) hu) hv
  obtain ⟨hlv, hov, hpv, hgv, -⟩ := removeEnds_spec hu hv
  have hgraph : (v.graph g).nodes = (h.graph g).nodes := by
    rw [hgv, ← congrFun hwt.frame.2 g]
    rfl
  have hlayout : SameLayout h v := hwt.layout.trans hlv
  have hloop : NoLoop h n → NoLoop v n := by
    intro hloop a b ha hb
    rw [hlv.owner] at ha ⊢
    rw [hpv] at hb
    exact hwt.noLoop (fun hloop => hloop) hloop a b ha hb
  have hww : Within (NoLoop h n) n (v.graph g).nodes v w :=
    stays_isolateNode (hlayout.nodeCount ▸ hn) hloop v ok₄ w (.refl hkv.inside) hw
  have hnodes : (w.graph g).nodes = (h.graph g).nodes := by
    rw [congrFun hww.frame.2 g, hgraph]
  have hwout : n ∉ (w.graph g).nodes := hnodes ▸ hout
  have hend : ∀ ok, ok = false → Shrunk h g n ok w := by
    rintro _ rfl
    refine ⟨hkv.within hww, hlayout.trans hww.layout, ?_, ?_, hnodes ▸ List.Sublist.refl _, nofun, nofun, fun hnone a ha => ?_⟩
    · rw [hww.frame.1, hov.1, hwt.frame.1]
    · rw [hww.opCount, hov.2, hwt.opCount]
    · have hao : w.owner a = h.owner a := (hlayout.trans hww.layout).owner a
      rw [hnodes, hao] at ha
      have hgone : v.peers a = [] ∧ (w.peers a).Sublist (v.peers a) := by
        have hempty : h.peers a = [] := hnone a ha
        rw [hpv]
        by_cases han : h.owner a = n
        · have hno : NoLoop h n := by
            intro b d hb hd
            rw [hnone b (hb ▸ hout)] at hd
            cases hd
          exact ⟨sublist_nil.mp (hempty ▸ hwt.shrink hno a han), hpv ▸ hww.shrink hno a ((hlayout.owner a).trans han)⟩
        · refine ⟨sublist_nil.mp (hempty ▸ hwt.outside a han ha), hpv ▸ hww.outside a ?_ ?_⟩
          · rwa [hlayout.owner]
          · rwa [hlayout.owner, hgraph]
      exact sublist_nil.mp (hgone.1 ▸ hgone.2)
  cases ok₄ with
  | false =>
    obtain ⟨rfl, rfl⟩ : false = ok ∧ w = h' := by simpa using hr
    exact hend false rfl
  | true =>
    obtain ⟨rfl, rfl⟩ : false = ok ∧ w = h' := by simpa [hwout] using hr
    exact hend false rfl

/-- Removing a node that may be removed. -/
theorem removeNode_listed_spec (hk : Kept h g) (hn : n ∈ (h.graph g).nodes) (hrem : h.Removable g n)
    (hr : removeNode g (some n) h = some (ok, h')) : Shrunk h g n ok h' := by
  have hmade : n < h.nodeCount := hk.inside.made n hn
  have hloop : NoLoop h n := noLoop_of_not_mem hk.inside.sound hk.inside.directed hmade hrem.1
  rw [removeNode] at hr
  obtain ⟨ok₁, t, ht, hr⟩ := bind_eq_some.mp hr
  obtain ⟨ok₂, u, hu, hr⟩ := bind_eq_some.mp hr
  obtain ⟨ok₃, v, hv, hr⟩ := bind_eq_some.mp hr
  obtain ⟨ok₄, w, hw, hr⟩ := bind_eq_some.mp hr
  have hp : Pruned h g n t := by
    rw [removeConstInput, get_bind_apply] at ht
    exact Pruned.removeConstInputs hk hmade hrem _ (hk.inside.sound.laid.nodup hmade .inData) (fun a ha => ha)
      (hk.pruned n) (fun _ _ => rfl) ht
  obtain ⟨hlv, hov, hpv, hgv, hiv⟩ := removeEnds_spec hu hv
  have hname : withoutEnds t n (t.graph g) = withoutEnds h n (t.graph g) := by
    unfold withoutEnds Node.getName Heap.desc
    rw [hp.op, hp.layout.node]
  have hkv : Kept v g := hp.kept (hiv hp.inside) (hgv.trans hname)
  have hlayout : SameLayout h v := hp.layout.trans hlv
  have hpeers : ∀ a, (v.peers a).Sublist (h.peers a) := fun a => hpv ▸ hp.sub a
  have hmv : n < v.nodeCount := hlayout.nodeCount ▸ hmade
  have hloopv : NoLoop v n := by
    intro a b ha hb
    rw [hlayout.owner] at ha ⊢
    exact hloop a b ha ((hpeers a).subset hb)
  have hww : Within True n (v.graph g).nodes v w :=
    stays_isolateNode hmv (fun _ => hloopv) v ok₄ w (.refl hkv.inside) hw
  have hkw : Kept w g := hkv.within hww
  have hwg : w.graph g = withoutEnds h n (t.graph g) := (congrFun hww.frame.2 g).trans (hgv.trans hname)
  have hnodes : (w.graph g).nodes = (t.graph g).nodes := by
    rw [hwg]
    rfl
  have hlisted : n ∈ (w.graph g).nodes := by
    rw [hnodes, ← count_pos_iff, hp.count n (.inl rfl)]
    exact count_pos_iff.mpr hn
  -- a node that is not listed any more, other than the one removed
  have hothers : Linkless h g → ∀ a, w.owner a ≠ n → w.owner a ∉ (w.graph g).nodes → w.peers a = [] := by
    intro hnone a han ha
    have hao : w.owner a = t.owner a := (hlv.trans hww.layout).owner a
    rw [hao] at han ha
    rw [hnodes] at ha
    have hgone : t.peers a = [] := by
      by_cases hin : t.owner a ∈ (h.graph g).nodes
      · exact hp.dropped a hin ha
      · rw [hp.layout.owner] at hin
        exact sublist_nil.mp (hnone a hin ▸ hp.sub a)
    have hsub : (w.peers a).Sublist (v.peers a) := by
      refine hww.outside a ?_ ?_
      · rwa [hlv.owner]
      · rwa [hlv.owner, ← congrFun hww.frame.2 g, hnodes]
    rw [hpv, hgone] at hsub
    exact sublist_nil.mp hsub
  have hstill : ∀ ok, ok = false → Shrunk h g n ok w := by
    rintro _ rfl
    refine ⟨hkw, hlayout.trans hww.layout, ?_, ?_, hnodes ▸ hp.nodes, nofun, nofun,
      fun hnone a ha => hothers hnone a (fun han => ?_) ha⟩
    · rw [hww.frame.1, hov.1, hp.op]
    · rw [hww.opCount, hov.2, hp.opCount]
    · exact ha (han ▸ hlisted)
  cases ok₄ with
  | false =>
    obtain ⟨rfl, rfl⟩ := of_return hr
    exact hstill false rfl
  | true =>
    simp only [Bool.not_true, Bool.false_eq_true, if_false, get_bind_apply] at hr
    rw [if_neg (not_not.mpr hlisted)] at hr
    simp only [edit, modify_bind_apply, pure_apply, Option.some.injEq, Prod.mk.injEq] at hr
    obtain ⟨-, rfl⟩ := hr
    have hgone : 1 < (w.graph g).nodes.count n ∨ (n ∉ (w.graph g).inputNodes ∧ ∀ a, w.owner a = n → w.peers a = []) := by
      rcases hrem.2.1 with htwice | ⟨honce, hfed, hcontrol⟩
      · left
        rw [hnodes]
        exact (hp.count n (.inl rfl)).symm ▸ htwice
      · refine .inr ⟨?_, (isolateNode_spec hkv.inside hmv hloopv (fun a ha => ?_) (fun b hb => ?_) hw).2⟩
        · rw [hwg]
          change n ∉ (t.graph g).inputNodes.erase n
          rw [hp.inputs]
          exact honce
        · exact (hfed a (hlayout.anchorsOf n .inData ▸ ha)).of_sublist hlayout (hpeers a)
        · rw [hlayout.kind]
          refine hcontrol b ?_
          rw [← hlayout.node]
          exact (hpeers _).subset hb
    have herase : (((w.setGraph g ((w.graph g).eraseFromNodeList n)).graph g).nodes) = (w.graph g).nodes.erase n := by
      rw [setGraph_graph, if_pos rfl]
      exact (eraseFromNodeList_spec hkw.size n).1
    refine ⟨kept_eraseNode hkw hgone fun p hp' => ?_, hlayout.trans (hww.layout.trans ?_), ?_, ?_, ?_, fun _ => hn,
      fun _ hnodup => ?_, fun hnone a ha => ?_⟩
    · rw [hwg] at hp'
      have hne := (mem_filter.mp hp').2
      rintro rfl
      simp at hne
    · exact ⟨rfl, rfl, rfl, fun _ => rfl, fun _ => rfl, fun _ => rfl⟩
    · exact hww.frame.1.trans (hov.1.trans hp.op)
    · exact hww.opCount.trans (hov.2.trans hp.opCount)
    · rw [herase, hnodes]
      exact erase_sublist.trans hp.nodes
    · rw [herase, hnodes]
      exact (hp.nodes.nodup hnodup).not_mem_erase
    · rw [herase] at ha
      by_cases han : w.owner a = n
      · rcases hgone with htwice | ⟨-, hempty⟩
        · exact absurd (han.symm ▸ mem_erase_of hlisted (.inr htwice)) ha
        · exact hempty a han
      · exact hothers hnone a han fun hmem => ha ((mem_erase_of_ne han).mpr hmem)

end ClosedAux

end Metadef
