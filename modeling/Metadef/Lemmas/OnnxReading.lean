import Metadef.Lemmas.OnnxMessages

/-!
# Reading messages

What reading the message of a graph comes to is told from the message: it has no outcome when a graph among the nodes is reached
without its attribute, it fails when the message is not read, and else the graph is built, apart from all that was there before.
-/

namespace Metadef

open List

open OnnxUtils

namespace Heap

/-- No more was made in the first of two heaps. -/
structure Before (h t : Heap) : Prop where
  opCount : h.opCount ≤ t.opCount
  nodeCount : h.nodeCount ≤ t.nodeCount
  anchorCount : h.anchorCount ≤ t.anchorCount
  graphCount : h.graphCount ≤ t.graphCount

/-- The nodes of a graph read so far, and the graphs among them, each in what was made while it was read. -/
structure NodesBuilt (u t : Heap) (g : GraphId) (depth : Nat) (node : List (NodeProto GraphProto))
    (nodeMap : OrderedMap String NodeId) : Prop where
  grown : Heap.Grown g u t
  made : g < u.graphCount
  pairs : OnnxMessagesAux.PairsRead u t (opProtos node) (t.graph g).nodes
  known : ∀ s, nodeMap.find s = firstNamed ((opProtos node).zip (t.graph g).nodes) s
  free : ∀ n ∈ (t.graph g).nodes, ∀ b ∈ t.inAnchors n, t.peers b = []
  subs : List.Forall₂ (fun m y => ∃ lo hi : Heap, u.Before lo ∧ hi.Before t ∧ GraphBuilt lo hi t depth m y ∧
    ∀ n ∈ (t.graph g).nodes, ∀ k, ∀ a ∈ t.anchorsOf n k, a < lo.anchorCount ∨ hi.anchorCount ≤ a)
    (subProtos node) (t.graph g).subGraph

/-- Only the inputs and outputs of a graph are new. -/
structure SameButEnds (g : GraphId) (u w : Heap) : Prop where
  same : w = { u with graph := w.graph }
  graph : ∀ x, x ≠ g → w.graph x = u.graph x
  nodes : (w.graph g).nodes = (u.graph g).nodes
  subGraph : (w.graph g).subGraph = (u.graph g).subGraph

end Heap

open Heap

namespace OnnxUtils

/-- What reading the message of a graph comes to. -/
structure GraphOutcome (depth : Nat) (m : GraphProto) (h : Heap) : Prop where
  read : Decodes depth m → ∃ t, decodeGraph depth m h = some (some h.graphCount, t) ∧ Heap.Grown h.graphCount h t ∧ t.Sound ∧
    Heap.GraphBuilt h t t depth m h.graphCount
  refused : ¬Decodes depth m → AttributesThere depth m → ∃ t, decodeGraph depth m h = some (none, t)
  undefined : ¬AttributesThere depth m → decodeGraph depth m h = none

end OnnxUtils

namespace OnnxReadingAux

open Cmd OnnxNodesAux OnnxGraphsAux OnnxLinksAux OnnxDecodingAux OnnxMessagesAux StructureAux LinkListsAux

variable {h t u v w lo hi : Heap} {g : GraphId} {n : NodeId} {p : NodeProto GraphProto}
  {node ps : List (NodeProto GraphProto)} {ns : List NodeId} {nodeMap : OrderedMap String NodeId} {depth : Nat} {m : GraphProto}

/-! ## What stays -/

theorem Before.refl (h : Heap) : h.Before h := ⟨Nat.le_refl _, Nat.le_refl _, Nat.le_refl _, Nat.le_refl _⟩

theorem Before.trans (h₁ : h.Before t) (h₂ : t.Before u) : h.Before u :=
  ⟨h₁.opCount.trans h₂.opCount, h₁.nodeCount.trans h₂.nodeCount, h₁.anchorCount.trans h₂.anchorCount,
    h₁.graphCount.trans h₂.graphCount⟩

theorem Before.of_grown (hg : Heap.Grown g h t) : h.Before t := ⟨hg.opCount, hg.nodeCount, hg.anchorCount, hg.graphCount⟩

/-- New objects leave what was made since a graph was. -/
theorem KeptFrom.of_grown (hg : Heap.Grown g t w) (hhi : hi.Before t) (hlo : g < lo.graphCount) : Heap.KeptFrom lo hi t w where
  op o ho := hg.op o (Nat.lt_of_lt_of_le ho hhi.opCount)
  node n hn := hg.node n (Nat.lt_of_lt_of_le hn hhi.nodeCount)
  anchor a _ ha := hg.anchor a (Nat.lt_of_lt_of_le ha hhi.anchorCount)
  graph x hx hlt := hg.graph x (Nat.lt_of_lt_of_le hlt hhi.graphCount) (Nat.ne_of_gt (Nat.lt_of_lt_of_le hlo hx))

theorem ProtoRead.kept (hr : Heap.ProtoRead lo hi t p n) (hk : Heap.KeptFrom lo hi t w) : Heap.ProtoRead lo hi w p n := by
  have hnode := hk.node n hr.made
  have hanchors : ∀ k, w.anchorsOf n k = t.anchorsOf n k := fun k => by cases k <;> simp only [Heap.anchorsOf, hnode]
  refine ⟨hr.made, hnode ▸ hr.op, fun k a ha => hr.anchors k a (hanchors k ▸ ha), ?_, hnode ▸ hr.inputs, hnode ▸ hr.outputs⟩
  rw [← hr.name]
  exact getName_congr (by rw [Heap.desc, hnode, hk.op _ hr.op, Heap.desc])

theorem ProtoRead.widen {lo' hi' : Heap} (hr : Heap.ProtoRead lo hi t p n) (hlo : lo'.Before lo) (hhi : hi.Before hi') :
    Heap.ProtoRead lo' hi' t p n :=
  ⟨Nat.lt_of_lt_of_le hr.made hhi.nodeCount, Nat.lt_of_lt_of_le hr.op hhi.opCount,
    fun k a ha => ⟨hlo.anchorCount.trans (hr.anchors k a ha).1, Nat.lt_of_lt_of_le (hr.anchors k a ha).2 hhi.anchorCount⟩,
    hr.name, hr.inputs, hr.outputs⟩

/-- The edges of requests of nodes depend on these nodes only. -/
theorem edgeOf_congr {pairs : ReadPairs} (hnode : ∀ e ∈ pairs, w.node e.2 = t.node e.2) {item : NodeNameNodeReq}
    (hi : item ∈ firstAsks pairs) : w.edgeOf (firstNamed pairs) item = t.edgeOf (firstNamed pairs) item := by
  have hdst : w.node item.dstNode = t.node item.dstNode := by
    obtain ⟨d, hd, hi⟩ := mem_flatMap.mp hi
    obtain ⟨e, he, rfl⟩ := List.mem_map.mp hd
    obtain ⟨x, hx⟩ := Option.isSome_iff_exists.mp (firstNamed_of_mem he)
    obtain ⟨d, hd, -, rfl⟩ := firstNamed_mem hx
    rw [(readInputs_mem _ 0 item hi).1]
    dsimp only
    rw [hx]
    exact hnode d hd
  unfold Heap.edgeOf Heap.sourceOf Heap.inputOf Node.getOutDataAnchor Node.getInDataAnchor
  rw [hdst]
  cases hsrc : firstNamed pairs item.srcNodeName with
  | none => rfl
  | some src =>
    obtain ⟨d, hd, -, rfl⟩ := firstNamed_mem hsrc
    simp only [Option.bind_some, hnode d hd]

theorem FirstLinked.kept {pairs : ReadPairs} (hl : t.FirstLinked pairs) (hnode : ∀ e ∈ pairs, w.node e.2 = t.node e.2)
    (hpeers : ∀ e ∈ pairs, ∀ b ∈ t.inAnchors e.2, w.peers b = t.peers b) : w.FirstLinked pairs := by
  have hedges : (firstAsks pairs).filterMap (w.edgeOf (firstNamed pairs)) =
      (firstAsks pairs).filterMap (t.edgeOf (firstNamed pairs)) :=
    filterMap_congr fun item hi => edgeOf_congr hnode hi
  refine ⟨fun item hi => edgeOf_congr hnode hi ▸ hl.found item hi, fun e he b hb => ?_⟩
  have hin : w.inAnchors e.2 = t.inAnchors e.2 := by simp only [Heap.inAnchors, Heap.anchorsOf, hnode e he]
  rw [hedges, hpeers e he b (hin ▸ hb)]
  exact hl.peers e he b (hin ▸ hb)

/-- A graph that was built stays with what was made while it was. -/
theorem GraphBuilt.kept (hk : Heap.KeptFrom lo hi t w) : ∀ {depth m g}, Heap.GraphBuilt lo hi t depth m g →
    Heap.GraphBuilt lo hi w depth m g := by
  intro depth
  induction depth with
  | zero => exact fun hb => hb
  | succ depth ih =>
    rintro ⟨name, input, output, node⟩ g ⟨hg, hread, hnd, hlinked, hsubs⟩
    have hgraph := hk.graph g hg.1 hg.2
    have hmem : ∀ e ∈ (opProtos node).zip (t.graph g).nodes, Heap.ProtoRead lo hi t e.1 e.2 :=
      fun e he => (forall₂_iff_zip.mp hread).2 he
    unfold Heap.GraphBuilt
    rw [hgraph]
    refine ⟨hg, hread.imp fun _ _ hr => ProtoRead.kept hr hk, hnd, FirstLinked.kept hlinked
      (fun e he => hk.node e.2 (hmem e he).made) fun e he b hb => ?_, hsubs.imp fun _ _ hb => ih hb⟩
    have hb : ∃ k, b ∈ t.anchorsOf e.2 k := (mem_append.mp hb).elim (fun hb => ⟨_, hb⟩) fun hb => ⟨_, hb⟩
    obtain ⟨k, hb⟩ := hb
    obtain ⟨hle, hlt⟩ := (hmem e he).anchors k b hb
    rw [Heap.peers, hk.anchor b hle hlt, Heap.peers]

theorem GraphBuilt.widen {lo' hi' : Heap} (hlo : lo'.Before lo) (hhi : hi.Before hi') : ∀ {depth m g},
    Heap.GraphBuilt lo hi t depth m g → Heap.GraphBuilt lo' hi' t depth m g := by
  intro depth
  induction depth with
  | zero => exact fun hb => hb
  | succ depth ih =>
    rintro ⟨name, input, output, node⟩ g ⟨hg, hread, hnd, hlinked, hsubs⟩
    exact ⟨⟨hlo.graphCount.trans hg.1, Nat.lt_of_lt_of_le hg.2 hhi.graphCount⟩,
      hread.imp fun _ _ hr => ProtoRead.widen hr hlo hhi, hnd, hlinked, hsubs.imp fun _ _ hb => ih hb⟩

/-! ## Reading the nodes -/

/-- Anchors made later than all links have none. -/
theorem peers_of_new (hs : h.Sound) {a : AnchorId} (ha : h.anchorCount ≤ a) : h.peers a = [] := by
  refine eq_nil_iff_forall_not_mem.mpr fun b hb => ?_
  have hheld := hs.symm.held hs.peersHeld hb
  exact absurd (hs.laid.made _ hheld.1 _ a hheld.2) (Nat.not_lt.mpr ha)

/-- What was built stays when objects are made later. -/
theorem SubBuilt.kept {y : GraphId} {ns : List NodeId} (hg : Heap.Grown g t w) (hmade : g < u.graphCount)
    (hnew : ∀ n ∈ ns, (n ∈ (t.graph g).nodes ∧ ∀ k, w.anchorsOf n k = t.anchorsOf n k) ∨
      ∀ k, ∀ a ∈ w.anchorsOf n k, t.anchorCount ≤ a)
    (hb : ∃ lo hi : Heap, u.Before lo ∧ hi.Before t ∧ Heap.GraphBuilt lo hi t depth m y ∧
      ∀ n ∈ (t.graph g).nodes, ∀ k, ∀ a ∈ t.anchorsOf n k, a < lo.anchorCount ∨ hi.anchorCount ≤ a) :
    ∃ lo hi : Heap, u.Before lo ∧ hi.Before w ∧ Heap.GraphBuilt lo hi w depth m y ∧
      ∀ n ∈ ns, ∀ k, ∀ a ∈ w.anchorsOf n k, a < lo.anchorCount ∨ hi.anchorCount ≤ a := by
  obtain ⟨lo, hi, hlo, hhi, hbuilt, hout⟩ := hb
  refine ⟨lo, hi, hlo, Before.trans hhi (Before.of_grown hg), GraphBuilt.kept (KeptFrom.of_grown hg hhi
    (Nat.lt_of_lt_of_le hmade hlo.graphCount)) hbuilt, fun n hn k a ha => ?_⟩
  rcases hnew n hn with ⟨hold, hsame⟩ | hnew
  · exact hout n hold k a (hsame k ▸ ha)
  · exact .inr (hhi.anchorCount.trans (hnew k a ha))

/-- One more node is read. -/
theorem NodesBuilt.addNode (hb : u.NodesBuilt t g depth node nodeMap) (hp : p.opType ≠ nodeTypeForSubgraph) {op : OpDesc}
    (hop : decodeNodeDesc p = some op) : ∃ v, ComputeGraph.addOpNode g (some t.opCount) (LinkCall.makeOp op t) =
      some (some t.nodeCount, v) ∧ u.NodesBuilt v g depth (node ++ [p]) (nodeMap.insert p.name t.nodeCount) := by
  obtain ⟨hname, hin, hout⟩ := decodeNodeDesc_some hop
  obtain ⟨v, hrun, hgrown, hsound, hpeers, -, hgraph, hmade, hopMade, hvname, -, hvin, hvout, hvnew⟩ :=
    addOpNode_spec hb.pairs.sound op g
  have hnodes : (v.graph g).nodes = (t.graph g).nodes ++ [t.nodeCount] := by rw [hgraph]; rfl
  have hops : opProtos (node ++ [p]) = opProtos node ++ [p] := by simp [opProtos, hp]
  have hsubs : subProtos (node ++ [p]) = subProtos node := by simp [subProtos, subProto, hp]
  have hlen := hb.pairs.read.length_eq
  have hzip : (opProtos (node ++ [p])).zip (v.graph g).nodes = (opProtos node).zip (t.graph g).nodes ++ [(p, t.nodeCount)] := by
    rw [hops, hnodes, zip_append hlen]
    rfl
  have hold : ∀ n ∈ (t.graph g).nodes, n < t.nodeCount := by
    intro n hn
    obtain ⟨q, -, hr⟩ := exists_of_forall₂ hb.pairs.read.flip hn
    exact hr.made
  have hkept : Heap.KeptFrom u t t v := KeptFrom.of_grown hgrown (Before.refl t) hb.made
  refine ⟨v, hrun, Grown.trans hb.grown hgrown, hb.made, ⟨hsound, ?_, ?_⟩, fun s => ?_, fun n hn b hbn => ?_, ?_⟩
  · rw [hops, hnodes]
    refine rel_append (hb.pairs.read.imp fun _ _ hr => ProtoRead.widen (ProtoRead.kept hr hkept) (Before.refl u)
      (Before.of_grown hgrown)) (.cons ⟨hmade, hopMade, fun k a ha => ⟨hb.grown.anchorCount.trans (hvnew k a ha), ?_⟩,
        hvname.trans hname, hvin.trans hin, hvout.trans hout⟩ .nil)
    exact hsound.laid.made _ hmade k a ha
  · rw [hnodes]
    refine nodup_append.mpr ⟨hb.pairs.nodup, nodup_singleton _, fun a ha b hb hab => ?_⟩
    obtain rfl := mem_singleton.mp hb
    exact absurd hab (Nat.ne_of_lt (hold a ha))
  · have hknown : nodeMap.contains p.name = false ↔ firstNamed ((opProtos node).zip (t.graph g).nodes) p.name = none := by
      rw [← OrderedMap.find_eq_none, hb.known]
    rw [hzip, firstNamed_append, OrderedMap.find_insert, hb.known]
    by_cases hs : s = p.name
    · subst hs
      cases hfirst : firstNamed ((opProtos node).zip (t.graph g).nodes) p.name with
      | none => simp [hknown.mpr hfirst]
      | some n =>
        have hthere : ¬nodeMap.contains p.name = false := fun hc => by simp [hknown.mp hc] at hfirst
        rw [if_neg fun hand => hthere hand.2]
        rfl
    · rw [if_neg fun hand => hs hand.1, if_neg fun he => hs he.symm, Option.or_none]
  · rw [hpeers]
    rw [hnodes, mem_append, mem_singleton] at hn
    rcases hn with hn | rfl
    · exact hb.free n hn b (Grown.inAnchors hgrown (hold n hn) ▸ hbn)
    · exact peers_of_new hb.pairs.sound ((mem_append.mp hbn).elim (hvnew _ b) (hvnew _ b))
  · rw [hsubs, show (v.graph g).subGraph = (t.graph g).subGraph by rw [hgraph]; rfl]
    refine hb.subs.imp fun m y hy => SubBuilt.kept hgrown hb.made (fun n hn => ?_) hy
    rw [hnodes, mem_append, mem_singleton] at hn
    rcases hn with hn | rfl
    · exact .inl ⟨hn, Grown.anchorsOf hgrown (hold n hn)⟩
    · exact .inr hvnew

/-- One more graph among the nodes is read and registered. -/
theorem NodesBuilt.addSub (hb : u.NodesBuilt t g depth node nodeMap) (hp : subProto p = some m) (hgrown : Heap.Grown t.graphCount t v)
    (hs : v.Sound) (hbuilt : Heap.GraphBuilt t v v depth m t.graphCount) :
    u.NodesBuilt (subGraphAdded v g t.graphCount) g depth (node ++ [p]) nodeMap := by
  have hlt : g < t.graphCount := Nat.lt_of_lt_of_le hb.made hb.grown.graphCount
  have hkeptGraph : v.graph g = t.graph g := hgrown.graph g hlt (Nat.ne_of_lt hlt)
  have hadd := grown_setGraph v g { v.graph g with
    subGraph := (v.graph g).subGraph ++ [t.graphCount]
    namesToSubgraph := (v.graph g).namesToSubgraph.assign (v.graph t.graphCount).name t.graphCount }
  have hall : Heap.Grown g t (subGraphAdded v g t.graphCount) := Grown.trans (Grown.of_new hgrown g) hadd
  have hthis : (subGraphAdded v g t.graphCount).graph g = { t.graph g with
      subGraph := (t.graph g).subGraph ++ [t.graphCount]
      namesToSubgraph := (t.graph g).namesToSubgraph.assign (v.graph t.graphCount).name t.graphCount } := by
    rw [subGraphAdded, setGraph_graph, if_pos rfl, hkeptGraph]
  have hsubgraph : p.opType = nodeTypeForSubgraph := by
    by_contra hne
    rw [subProto, if_neg hne] at hp
    cases hp
  have hops : opProtos (node ++ [p]) = opProtos node := by simp [opProtos, hsubgraph]
  have hsubs : subProtos (node ++ [p]) = subProtos node ++ [m] := by simp [subProtos, hp]
  have hold : ∀ n ∈ (t.graph g).nodes, n < t.nodeCount := by
    intro n hn
    obtain ⟨q, -, hr⟩ := exists_of_forall₂ hb.pairs.read.flip hn
    exact hr.made
  have hkept : Heap.KeptFrom u t t (subGraphAdded v g t.graphCount) := KeptFrom.of_grown hall (Before.refl t) hb.made
  have hnodes : ((subGraphAdded v g t.graphCount).graph g).nodes = (t.graph g).nodes := by rw [hthis]
  refine ⟨Grown.trans hb.grown hall, hb.made, ⟨GraphSteps.sound_setGraph hs g _, ?_, hnodes ▸ hb.pairs.nodup⟩, fun s => ?_,
    fun n hn b hbn => ?_, ?_⟩
  · rw [hops, hnodes]
    exact hb.pairs.read.imp fun _ _ hr => ProtoRead.widen (ProtoRead.kept hr hkept) (Before.refl u) (Before.of_grown hall)
  · rw [hops, hnodes]
    exact hb.known s
  · rw [hnodes] at hn
    rw [Grown.inAnchors hall (hold n hn)] at hbn
    have hheld := ((mem_inAnchors hb.pairs.sound.laid (hold n hn)).mp hbn).1
    rw [Heap.peers, hall.anchor b (hb.pairs.sound.laid.made _ hheld.1 _ b hheld.2)]
    exact hb.free n hn b hbn
  · rw [hsubs, show ((subGraphAdded v g t.graphCount).graph g).subGraph = (t.graph g).subGraph ++ [t.graphCount] by rw [hthis]]
    have hsame : ∀ n ∈ ((subGraphAdded v g t.graphCount).graph g).nodes,
      n ∈ (t.graph g).nodes ∧ ∀ k, (subGraphAdded v g t.graphCount).anchorsOf n k = t.anchorsOf n k :=
      fun n hn => ⟨hnodes ▸ hn, Grown.anchorsOf hall (hold n (hnodes ▸ hn))⟩
    refine rel_append (hb.subs.imp fun m y hy => SubBuilt.kept hall hb.made (fun n hn => .inl (hsame n hn)) hy)
      (.cons ⟨t, v, Before.of_grown hb.grown, Before.of_grown hadd, ?_, fun n hn k a ha => .inl ?_⟩ .nil)
    · have hown : Heap.KeptFrom t v v (subGraphAdded v g t.graphCount) := ⟨fun _ _ => rfl, fun _ _ => rfl, fun _ _ _ => rfl,
        fun x hx hxv => hadd.graph x hxv (Nat.ne_of_gt (Nat.lt_of_lt_of_le hlt hx))⟩
      exact GraphBuilt.kept hown hbuilt
    · rw [(hsame n hn).2 k] at ha
      exact hb.pairs.sound.laid.made n (hold n (hsame n hn).1) k a ha

/-- Going through the nodes of a message is told from the messages. -/
structure NodesOutcome (u : Heap) (g : GraphId) (depth : Nat) (node l : List (NodeProto GraphProto))
    (nodeMap : OrderedMap String NodeId) (t : Heap) : Prop where
  read : (∀ p ∈ l, NodeDecodes (Decodes depth) p) → ∃ nodeMap' v, decodeNodes (decodeGraph depth) g l nodeMap (opProtos node) t =
    some (some (nodeMap', opProtos (node ++ l)), v) ∧ u.NodesBuilt v g depth (node ++ l) nodeMap'
  refused : ¬(∀ p ∈ l, NodeDecodes (Decodes depth) p) → NodesThere (Decodes depth) (AttributesThere depth) l →
    ∃ v, decodeNodes (decodeGraph depth) g l nodeMap (opProtos node) t = some (none, v)
  undefined : ¬NodesThere (Decodes depth) (AttributesThere depth) l →
    decodeNodes (decodeGraph depth) g l nodeMap (opProtos node) t = none

/-- What can be read has the attributes that are asked for. -/
theorem attributesThere_of_decodes : ∀ {depth m}, Decodes depth m → AttributesThere depth m := by
  intro depth
  induction depth with
  | zero => exact fun _ => trivial
  | succ depth ih =>
    rintro ⟨name, input, output, node⟩ ⟨hnodes, -⟩
    show NodesThere _ _ node
    induction node with
    | nil => trivial
    | cons p l ihl =>
      obtain ⟨hp, hl⟩ := forall_mem_cons.mp hnodes
      refine ⟨fun hsub => ?_, fun _ => ihl hl⟩
      rw [NodeDecodes, if_pos hsub] at hp
      obtain ⟨attr, hattr, -, hread⟩ := hp
      exact ⟨attr, hattr, fun _ => ih hread⟩

/-- One more message goes as the message of a node or of a graph does. -/
theorem NodesOutcome.cons {node' : List (NodeProto GraphProto)} {nodeMap' : OrderedMap String NodeId} {l}
    (hnode : node' = node ++ [p]) (hread : NodeDecodes (Decodes depth) p)
    (hthere : p.opType = nodeTypeForSubgraph →
      ∃ attr, p.attributes.head? = some attr ∧ (attr.type = .graph → AttributesThere depth (heldGraph attr)))
    (hstep : decodeNodes (decodeGraph depth) g (p :: l) nodeMap (opProtos node) t =
      decodeNodes (decodeGraph depth) g l nodeMap' (opProtos node') v)
    (hrest : NodesOutcome u g depth node' l nodeMap' v) : NodesOutcome u g depth node (p :: l) nodeMap t := by
  subst hnode
  have hsplit : node ++ p :: l = node ++ [p] ++ l := by simp
  refine ⟨fun hall => ?_, fun hnot hgo => ?_, fun hgo => ?_⟩
  · rw [hstep, hsplit]
    exact hrest.read (forall_mem_cons.mp hall).2
  · rw [hstep]
    exact hrest.refused (fun hall => hnot (forall_mem_cons.mpr ⟨hread, hall⟩)) (hgo.2 hread)
  · rw [hstep]
    exact hrest.undefined fun hall => hgo ⟨hthere, fun _ => hall⟩

/-- Going through the nodes stops where a message is not read. -/
theorem NodesOutcome.stop {l} (hnot : ¬NodeDecodes (Decodes depth) p) (hthere : p.opType = nodeTypeForSubgraph →
      ∃ attr, p.attributes.head? = some attr ∧ (attr.type = .graph → AttributesThere depth (heldGraph attr)))
    (hstep : decodeNodes (decodeGraph depth) g (p :: l) nodeMap (opProtos node) t = some (none, v)) :
    NodesOutcome u g depth node (p :: l) nodeMap t where
  read hall := absurd (forall_mem_cons.mp hall).1 hnot
  refused _ _ := ⟨v, hstep⟩
  undefined hgo := absurd ⟨hthere, fun hread => absurd hread hnot⟩ hgo

/-- A message of a graph goes as its first attribute does. -/
theorem decodeNodes_graph {attr : AttributeProto GraphProto} {more} (hsub : p.opType = nodeTypeForSubgraph)
    (hattrs : p.attributes = attr :: more) (l : List (NodeProto GraphProto)) :
    decodeNodes (decodeGraph depth) g (p :: l) nodeMap ps = (do
      if attr.type ≠ .graph then return none
      let some subgraph ← decodeGraph depth (heldGraph attr) | return none
      let _ ← ComputeGraph.addSubGraph g (some subgraph)
      decodeNodes (decodeGraph depth) g l nodeMap ps) := by
  rw [decodeNodes, if_pos hsub, hattrs]
  rfl

/-- The message of a graph is read, refused or reached without its attribute. -/
theorem NodesOutcome.ofGraph {l} (hsub : p.opType = nodeTypeForSubgraph) (hb : u.NodesBuilt t g depth node nodeMap)
    (ih : ∀ (m : GraphProto) (t : Heap), t.Sound → GraphOutcome depth m t)
    (hrest : ∀ v, u.NodesBuilt v g depth (node ++ [p]) nodeMap → NodesOutcome u g depth (node ++ [p]) l nodeMap v) :
    NodesOutcome u g depth node (p :: l) nodeMap t := by
  cases hattrs : p.attributes with
  | nil =>
    have hundef : decodeNodes (decodeGraph depth) g (p :: l) nodeMap (opProtos node) t = none := by
      rw [decodeNodes, if_pos hsub, hattrs]
      rfl
    have hnot : ¬NodeDecodes (Decodes depth) p := by
      rw [NodeDecodes, if_pos hsub, hattrs]
      rintro ⟨attr, hattr, -⟩
      cases hattr
    refine ⟨fun hall => absurd (forall_mem_cons.mp hall).1 hnot, fun _ hgo => ?_, fun _ => hundef⟩
    obtain ⟨attr, hattr, -⟩ := hgo.1 hsub
    rw [hattrs] at hattr
    cases hattr
  | cons attr more =>
    have hstep := @decodeNodes_graph g p (opProtos node) nodeMap depth attr more hsub hattrs l
    have hhead : p.attributes.head? = some attr := by rw [hattrs]; rfl
    have hreads : NodeDecodes (Decodes depth) p ↔ attr.type = .graph ∧ Decodes depth (heldGraph attr) := by
      rw [NodeDecodes, if_pos hsub, hhead]
      constructor
      · rintro ⟨a, ha, htype, hread⟩
        exact Option.some.inj ha ▸ ⟨htype, hread⟩
      · exact fun hand => ⟨attr, rfl, hand⟩
    have hout := ih (heldGraph attr) t hb.pairs.sound
    by_cases htype : attr.type = .graph
    · rw [if_neg (not_not.mpr htype)] at hstep
      by_cases hthere : AttributesThere depth (heldGraph attr)
      · by_cases hread : Decodes depth (heldGraph attr)
        · obtain ⟨v, hv, hgrown, hs, hbuilt⟩ := hout.read hread
          have hlt : g < t.graphCount := Nat.lt_of_lt_of_le hb.made hb.grown.graphCount
          have hproto : subProto p = some (heldGraph attr) := by rw [subProto, if_pos hsub, hhead]; rfl
          refine NodesOutcome.cons rfl (hreads.mpr ⟨htype, hread⟩) (fun _ => ⟨attr, hhead, fun _ => hthere⟩) ?_
            (hrest _ (NodesBuilt.addSub hb hproto hgrown hs hbuilt))
          rw [hstep, bind_of_eq hv]
          dsimp only
          rw [bind_of_eq (addSubGraph_eq v (Nat.ne_of_gt hlt))]
          simp [opProtos, hsub]
        · obtain ⟨v, hv⟩ := hout.refused hread hthere
          refine NodesOutcome.stop (v := v) (fun hp => hread (hreads.mp hp).2) (fun _ => ⟨attr, hhead, fun _ => hthere⟩) ?_
          rw [hstep, bind_of_eq hv]
          rfl
      · have hnot : ¬NodeDecodes (Decodes depth) p := fun hp => hthere (attributesThere_of_decodes (hreads.mp hp).2)
        refine ⟨fun hall => absurd (forall_mem_cons.mp hall).1 hnot, fun _ hgo => ?_, fun _ => ?_⟩
        · obtain ⟨a, ha, hgo⟩ := hgo.1 hsub
          obtain rfl := Option.some.inj (hhead.symm.trans ha)
          exact absurd (hgo htype) hthere
        · rw [hstep]
          simp only [bind, StateT.bind, hout.undefined hthere]
          rfl
    · refine NodesOutcome.stop (v := t) (fun hp => htype (hreads.mp hp).1) (fun _ => ⟨attr, hhead, fun he => absurd he htype⟩) ?_
      rw [hstep, if_pos htype]
      rfl

/-- The message of a node is read or refused. -/
theorem NodesOutcome.ofNode {l} (hsub : p.opType ≠ nodeTypeForSubgraph) (hb : u.NodesBuilt t g depth node nodeMap)
    (hrest : ∀ nodeMap v, u.NodesBuilt v g depth (node ++ [p]) nodeMap → NodesOutcome u g depth (node ++ [p]) l nodeMap v) :
    NodesOutcome u g depth node (p :: l) nodeMap t := by
  have hno : p.opType = nodeTypeForSubgraph → ∃ attr, p.attributes.head? = some attr ∧
    (attr.type = .graph → AttributesThere depth (heldGraph attr)) := fun he => absurd he hsub
  have hreads : NodeDecodes (Decodes depth) p ↔ (decodeNodeDesc p).isSome := by
    rw [NodeDecodes, if_neg hsub, decodeNodeDesc_isSome]
  cases hop : decodeNodeDesc p with
  | none =>
    refine NodesOutcome.stop (v := t) (fun hp => by simp [hreads, hop] at hp) hno ?_
    rw [decodeNodes, if_neg hsub, hop]
    rfl
  | some op =>
    obtain ⟨v, hrun, hbv⟩ := NodesBuilt.addNode hb hsub hop
    refine NodesOutcome.cons rfl (hreads.mpr (by rw [hop]; rfl)) hno ?_ (hrest _ v hbv)
    rw [decodeNodes, if_neg hsub, hop]
    dsimp only
    rw [get_bind_apply, modify_bind_apply, bind_of_eq hrun]
    simp [opProtos, hsub]

/-- The nodes of a message are read one by one. -/
theorem decodeNodes_spec (ih : ∀ (m : GraphProto) (t : Heap), t.Sound → GraphOutcome depth m t)
    (l : List (NodeProto GraphProto)) : ∀ {node : List (NodeProto GraphProto)} {nodeMap : OrderedMap String NodeId} {t : Heap},
    u.NodesBuilt t g depth node nodeMap → NodesOutcome u g depth node l nodeMap t := by
  induction l with
  | nil =>
    intro node nodeMap t hb
    exact ⟨fun _ => ⟨nodeMap, t, by rw [append_nil]; rfl, by rwa [append_nil]⟩,
      fun hnot => absurd (fun p hp => absurd hp not_mem_nil) hnot, fun hnot => absurd trivial hnot⟩
  | cons p l ihl =>
    intro node nodeMap t hb
    by_cases hsub : p.opType = nodeTypeForSubgraph
    · exact NodesOutcome.ofGraph hsub hb ih fun v hv => ihl hv
    · exact NodesOutcome.ofNode hsub hb fun nodeMap v hv => ihl hv

/-! ## Making the links -/

/-- Anchors that are no end of a link are as they were. -/
theorem anchor_linkAll (l : List (AnchorId × AnchorId)) {x : AnchorId} : ∀ {h : Heap}, (∀ e ∈ l, e.1 ≠ x ∧ e.2 ≠ x) →
    (linkAll l h).anchor x = h.anchor x := by
  induction l with
  | nil => exact fun _ => rfl
  | cons e l ih =>
    intro h hl
    obtain ⟨h₁, h₂⟩ := hl e mem_cons_self
    rw [linkAll, ih fun d hd => hl d (mem_cons_of_mem e hd)]
    simp [Anchor.linked, Heap.setPeers, Heap.setAnchor, h₁.symm, h₂.symm]

/-- The edges of the requests of nodes that were read. -/
def firstEdges (t : Heap) (pairs : ReadPairs) : List (AnchorId × AnchorId) :=
  (firstAsks pairs).filterMap (t.edgeOf (firstNamed pairs))

/-- They are from outputs of the nodes to inputs of those that names lead to. -/
theorem firstEdges_mem (hr : PairsRead lo t ps ns) {e : AnchorId × AnchorId} (he : e ∈ firstEdges t (ps.zip ns)) :
    (t.Held e.1 ∧ t.owner e.1 ∈ ns ∧ (t.kind e.1).isIn = false) ∧
      ∃ n ∈ ns, (∃ s, firstNamed (ps.zip ns) s = some n) ∧ e.2 ∈ t.inAnchors n := by
  obtain ⟨item, hi, he⟩ := mem_filterMap.mp he
  rw [firstAsks_eq hr.read.length_eq] at hi
  obtain ⟨item, hask, rfl⟩ := List.mem_map.mp hi
  obtain ⟨d, hd, hfirst, -, hdst⟩ := redirect_dst hr hask
  obtain ⟨hsrc, hin, -⟩ := edgeOf_some hr (hdst ▸ (hr.mem hd).made) he
  exact ⟨hsrc, d.2, (of_mem_zip hd).2, ⟨_, hfirst⟩, hdst ▸ hin⟩

/-- The loop over the links asks for the edges of the requests. -/
theorem asksLinks (hr : PairsRead lo t ps ns) (hknown : ∀ s, nodeMap.find s = firstNamed (ps.zip ns) s) :
    AsksLinks t (meet nodeMap) (t.edgeOf (firstNamed (ps.zip ns))) (fun item => 0 ≤ item.srcOutIndex)
      (firstAsks (ps.zip ns)) := by
  have hends : ∀ s, t.SameButPeers s → ∀ item, ends nodeMap s item = t.edgeOf (firstNamed (ps.zip ns)) item := by
    intro s hs item
    rw [ends_congr hs.node, ends_eq, funext hknown]
  refine ⟨fun s hs item _ he => ?_, fun s hs item _ e he hfree => ?_, fun s hs item _ e he hidx hused => ?_, fun item hi e he => ?_⟩
  · exact (meets_meet nodeMap).none s item ((hends s hs item).trans he)
  · exact (meets_meet nodeMap).made s item e ((hends s hs item).trans he) hfree
  · rcases meet_cases nodeMap s item with ⟨-, hrun⟩ | ⟨d, hd, hrun⟩
    · exact hrun
    · obtain rfl := Option.some.inj ((hends s hs item ▸ hd).symm.trans he)
      rw [hrun, if_neg fun hall => hused (List.isEmpty_iff.mp (hall hidx))]
  · obtain ⟨hsrc, n, hn, -, hin⟩ := firstEdges_mem hr (mem_filterMap.mpr ⟨item, hi, he⟩)
    obtain ⟨p, -, hp⟩ := exists_of_forall₂ hr.read.flip hn
    exact ⟨hsrc.2.2, ((mem_inAnchors hr.sound.laid hp.made).mp hin).2.2⟩

/-- The links of messages are all made when these can be linked, and else refused. -/
theorem decodeNodeLink_outcome (hr : PairsRead lo t ps ns) (hknown : ∀ s, nodeMap.find s = firstNamed (ps.zip ns) s)
    (hfree : ∀ n ∈ ns, ∀ b ∈ t.inAnchors n, t.peers b = []) :
    (Linkable ps → decodeNodeLink nodeMap ps t = some (true, linkAll (firstEdges t (ps.zip ns)) t)) ∧
      (¬Linkable ps → ∃ u, decodeNodeLink nodeMap ps t = some (false, u)) := by
  have hfound : ∀ e ∈ (ps.zip ns).map fun e => (e.1, (firstNamed (ps.zip ns) e.1.name).getD 0),
      nodeMap.find e.1.name = some e.2 := by
    intro d hd
    obtain ⟨e, he, rfl⟩ := List.mem_map.mp hd
    obtain ⟨n, hn⟩ := Option.isSome_iff_exists.mp (firstNamed_of_mem he)
    rw [hknown]
    dsimp only
    rw [hn]
    rfl
  have hrun : decodeNodeLink nodeMap ps t = Cmd.eachOk (meet nodeMap) (firstAsks (ps.zip ns)) t := by
    have hasks := decodeNodeLink_asks hfound t
    rw [map_map] at hasks
    rw [firstAsks, ← hasks]
    exact congrArg (decodeNodeLink nodeMap · t) (map_fst_zip (Nat.le_of_eq hr.read.length_eq)).symm
  have hfrees : ∀ item ∈ firstAsks (ps.zip ns), 0 ≤ item.srcOutIndex → ∀ e,
      t.edgeOf (firstNamed (ps.zip ns)) item = some e → t.peers e.2 = [] := by
    intro item hi _ e he
    obtain ⟨-, n, hn, -, hin⟩ := firstEdges_mem hr (mem_filterMap.mpr ⟨item, hi, he⟩)
    exact hfree n hn e.2 hin
  have hiff : ∀ u, decodeNodeLink nodeMap ps t = some (true, u) ↔ Linkable ps ∧ u = linkAll (firstEdges t (ps.zip ns)) t := by
    intro u
    rw [hrun, eachOk_asks_iff (asksLinks hr hknown), linkable_iff hr]
    constructor
    · rintro ⟨h₁, -, h₃, h₄⟩
      exact ⟨⟨h₁, h₃⟩, h₄⟩
    · rintro ⟨⟨h₁, h₃⟩, h₄⟩
      exact ⟨h₁, hfrees, h₃, h₄⟩
  refine ⟨fun hl => (hiff _).mpr ⟨hl, rfl⟩, fun hl => ?_⟩
  have hdefined : ∃ r, decodeNodeLink nodeMap ps t = some r := by
    rw [hrun]
    refine eachOk_defined (fun item _ s => ?_) t
    rcases meet_cases nodeMap s item with ⟨-, hmeet⟩ | ⟨e, -, hmeet⟩
    · exact ⟨_, hmeet⟩
    · exact ⟨_, hmeet⟩
  obtain ⟨⟨ok, u⟩, hout⟩ := hdefined
  cases ok with
  | false => exact ⟨u, hout⟩
  | true => exact absurd ((hiff u).mp hout).1 hl

/-! ## Entering inputs and outputs -/

theorem SameButEnds.edit (hs : u.SameButEnds g w) (x : ComputeGraph) (hnodes : x.nodes = (w.graph g).nodes)
    (hsub : x.subGraph = (w.graph g).subGraph) : u.SameButEnds g (w.setGraph g x) := by
  refine ⟨?_, fun y hy => ?_, ?_, ?_⟩
  · conv_lhs => rw [hs.same]
    rfl
  · rw [setGraph_graph, if_neg hy]
    exact hs.graph y hy
  · rw [setGraph_graph, if_pos rfl, hnodes]
    exact hs.nodes
  · rw [setGraph_graph, if_pos rfl, hsub]
    exact hs.subGraph

/-- Entering inputs or outputs succeeds when all are found. -/
theorem enter_outcome (f : String → Cmd Heap Bool) (put : Heap → NodeId → ComputeGraph)
    (hf : ∀ w s, u.SameButEnds g w → f s w = some (match nodeMap.find s with
      | none => (false, w)
      | some n => (true, w.setGraph g (put w n))))
    (hput : ∀ w n, (put w n).nodes = (w.graph g).nodes ∧ (put w n).subGraph = (w.graph g).subGraph) (names : List String)
    {w : Heap} (hw : u.SameButEnds g w) :
    ∃ t, Cmd.eachOk f names w = some (names.all fun s => (nodeMap.find s).isSome, t) ∧ u.SameButEnds g t := by
  refine eachOk_of_total (fun s _ w hw => ?_) hw
  rw [hf w s hw]
  cases nodeMap.find s with
  | none => exact ⟨w, rfl, hw⟩
  | some n => exact ⟨_, rfl, SameButEnds.edit hw _ (hput w n).1 (hput w n).2⟩

/-! ## Reading a graph -/

/-- A message of a graph behind its nodes: the links are made and the ends entered when they are found. -/
theorem finish_outcome (hb : u.NodesBuilt t g depth node nodeMap) (input output : List String) :
    ((Linkable (opProtos node) ∧ (∀ s ∈ input, (named (opProtos node) s).isSome) ∧
      ∀ s ∈ output, (named (opProtos node) s).isSome) → ∃ w, finish g nodeMap (opProtos node) input output t = some (some g, w) ∧
        (linkAll (firstEdges t ((opProtos node).zip (t.graph g).nodes)) t).SameButEnds g w) ∧
    (¬(Linkable (opProtos node) ∧ (∀ s ∈ input, (named (opProtos node) s).isSome) ∧
      ∀ s ∈ output, (named (opProtos node) s).isSome) → ∃ w, finish g nodeMap (opProtos node) input output t = some (none, w)) := by
  have hlen := hb.pairs.read.length_eq
  obtain ⟨hlinks, hnolinks⟩ := decodeNodeLink_outcome hb.pairs hb.known hb.free
  by_cases hl : Linkable (opProtos node)
  · have hlink := hlinks hl
    obtain ⟨v, hv⟩ : ∃ v, v = linkAll (firstEdges t ((opProtos node).zip (t.graph g).nodes)) t := ⟨_, rfl⟩
    rw [← hv] at hlink ⊢
    have hgraph : v.graph = t.graph := hv ▸ (SameButPeers.linkAll _ t).graph
    have hmem : ∀ w, v.SameButEnds g w → ∀ s n, nodeMap.find s = some n → n ∈ (w.graph g).nodes := by
      intro w hw s n hn
      rw [hb.known] at hn
      obtain ⟨e, he, -, rfl⟩ := firstNamed_mem hn
      rw [hw.nodes, hgraph]
      exact (of_mem_zip he).2
    have hnamed : ∀ s, (nodeMap.find s).isSome = (named (opProtos node) s).isSome := by
      intro s
      rw [hb.known]
      rcases firstNamed_spec s hlen with ⟨h₁, h₂⟩ | ⟨e, -, h₁, h₂, -⟩ <;> rw [h₁, h₂] <;> rfl
    have hstart : v.SameButEnds g v := ⟨rfl, fun _ _ => rfl, rfl, rfl⟩
    obtain ⟨x, hin, hx⟩ := enter_outcome (decodeInput g nodeMap) (fun w n => { w.graph g with
      inputNodes := (w.graph g).inputNodes ++ [n] }) (fun w s hw => decodeInput_eq (hmem w hw) s) (fun _ _ => ⟨rfl, rfl⟩)
      input hstart
    obtain ⟨y, hout, hy⟩ := enter_outcome (decodeOutput g nodeMap) (fun w n => { w.graph g with
      outputNodesInfo := enterOutput w (w.graph g).outputNodesInfo n }) (fun w s hw => decodeOutput_eq (hmem w hw) s)
      (fun _ _ => ⟨rfl, rfl⟩) output hx
    simp only [hnamed] at hin hout
    unfold finish
    rw [bind_of_eq hlink, if_neg (by simp), bind_of_eq hin]
    cases hins : input.all fun s => (named (opProtos node) s).isSome with
    | false =>
      refine ⟨fun hall => ?_, fun _ => ⟨x, rfl⟩⟩
      rw [all_eq_true.mpr hall.2.1] at hins
      cases hins
    | true =>
      rw [if_neg (by simp), bind_of_eq hout]
      cases houts : output.all fun s => (named (opProtos node) s).isSome with
      | false =>
        refine ⟨fun hall => ?_, fun _ => ⟨y, rfl⟩⟩
        rw [all_eq_true.mpr hall.2.2] at houts
        cases houts
      | true => exact ⟨fun _ => ⟨y, rfl, hy⟩,
          fun hnot => absurd ⟨hl, all_eq_true.mp hins, all_eq_true.mp houts⟩ hnot⟩
  · obtain ⟨v, hv⟩ := hnolinks hl
    refine ⟨fun hall => absurd hall.1 hl, fun _ => ⟨v, ?_⟩⟩
    unfold finish
    rw [bind_of_eq hv]
    rfl

/-- Of what was made before the nodes, links of these leave all as it was. -/
theorem finished_of_ends (hb : u.NodesBuilt t g depth node nodeMap)
    (hw : (linkAll (firstEdges t ((opProtos node).zip (t.graph g).nodes)) t).SameButEnds g w) :
    Heap.Grown g u w ∧ w.Sound ∧ t.Before w := by
  have hsame := SameButPeers.linkAll (firstEdges t ((opProtos node).zip (t.graph g).nodes)) t
  have hedge := fun e he => @firstEdges_mem t u (opProtos node) (t.graph g).nodes hb.pairs e he
  have hheld : ∀ e ∈ firstEdges t ((opProtos node).zip (t.graph g).nodes), t.Held e.1 ∧ t.Held e.2 := by
    intro e he
    obtain ⟨⟨hheld, -⟩, n, hn, -, hin⟩ := hedge e he
    obtain ⟨p, -, hr⟩ := exists_of_forall₂ hb.pairs.read.flip hn
    exact ⟨hheld, ((mem_inAnchors hb.pairs.sound.laid hr.made).mp hin).1⟩
  have hcounts : t.Before w := by
    rw [hw.same]
    exact ⟨Nat.le_of_eq hsame.opCount.symm, Nat.le_of_eq hsame.nodeCount.symm, Nat.le_of_eq hsame.anchorCount.symm,
      Nat.le_of_eq hsame.graphCount.symm⟩
  have hall := Before.trans (Before.of_grown hb.grown) hcounts
  -- the ends of the links were made later
  have hnew : ∀ e ∈ firstEdges t ((opProtos node).zip (t.graph g).nodes), u.anchorCount ≤ e.1 ∧ u.anchorCount ≤ e.2 := by
    have hread : ∀ n ∈ (t.graph g).nodes, ∀ k, ∀ a ∈ t.anchorsOf n k, u.anchorCount ≤ a := by
      intro n hn k a ha
      obtain ⟨p, -, hr⟩ := exists_of_forall₂ hb.pairs.read.flip hn
      exact (hr.anchors k a ha).1
    intro e he
    obtain ⟨⟨hheld, howner, -⟩, n, hn, -, hin⟩ := hedge e he
    exact ⟨hread _ howner _ _ hheld.2, (mem_append.mp hin).elim (hread n hn _ _) (hread n hn _ _)⟩
  refine ⟨⟨hall.opCount, hall.nodeCount, hall.anchorCount, hall.graphCount, fun o ho => ?_, fun n hn => ?_, fun a ha => ?_,
    fun x hx hne => ?_⟩, ?_, hcounts⟩
  · rw [← hb.grown.op o ho, hw.same]
    exact congrFun hsame.op o
  · rw [← hb.grown.node n hn, hw.same]
    exact congrFun hsame.node n
  · rw [← hb.grown.anchor a ha, hw.same]
    exact anchor_linkAll _ fun e he => ⟨fun heq => absurd (heq ▸ (hnew e he).1) (Nat.not_le.mpr ha),
      fun heq => absurd (heq ▸ (hnew e he).2) (Nat.not_le.mpr ha)⟩
  · rw [hw.graph x hne, hsame.graph]
    exact hb.grown.graph x hx hne
  · rw [hw.same]
    exact (sound_linkAll hb.pairs.sound hheld).of_anchors rfl rfl rfl rfl

/-- The graph whose links are made and whose ends are entered is built. -/
theorem built_of_finished {name : String} {input output : List String} (hb : u.NodesBuilt t g depth node nodeMap)
    (hlo : h.Before u) (hg : g = h.graphCount) (hl : Linkable (opProtos node))
    (hw : (linkAll (firstEdges t ((opProtos node).zip (t.graph g).nodes)) t).SameButEnds g w) :
    Heap.GraphBuilt h w w (depth + 1) (.mk name input output node) g := by
  obtain ⟨-, hsound, hcounts⟩ := finished_of_ends hb hw
  have hsame := SameButPeers.linkAll (firstEdges t ((opProtos node).zip (t.graph g).nodes)) t
  have hnodes : (w.graph g).nodes = (t.graph g).nodes := by rw [hw.nodes, hsame.graph]
  have hsubs : (w.graph g).subGraph = (t.graph g).subGraph := by rw [hw.subGraph, hsame.graph]
  have hnode : w.node = t.node := by rw [hw.same]; exact hsame.node
  have hop : w.op = t.op := by rw [hw.same]; exact hsame.op
  have hanchor : w.anchor = (linkAll (firstEdges t ((opProtos node).zip (t.graph g).nodes)) t).anchor := by rw [hw.same]
  have hanchorsOf : ∀ n k, w.anchorsOf n k = t.anchorsOf n k := fun n k => by cases k <;> simp only [Heap.anchorsOf, hnode]
  have hedge := fun e he => @firstEdges_mem t u (opProtos node) (t.graph g).nodes hb.pairs e he
  refine ⟨⟨hg ▸ Nat.le_refl _, Nat.lt_of_lt_of_le (Nat.lt_of_lt_of_le hb.made hb.grown.graphCount) hcounts.graphCount⟩, ?_, ?_, ?_, ?_⟩
  · rw [hnodes]
    refine hb.pairs.read.imp fun p n hr => ⟨Nat.lt_of_lt_of_le hr.made hcounts.nodeCount, ?_, fun k a ha => ?_, ?_, ?_, ?_⟩
    · rw [hnode]
      exact Nat.lt_of_lt_of_le hr.op hcounts.opCount
    · obtain ⟨h₁, h₂⟩ := hr.anchors k a (hanchorsOf n k ▸ ha)
      exact ⟨hlo.anchorCount.trans h₁, Nat.lt_of_lt_of_le h₂ hcounts.anchorCount⟩
    · rw [← hr.name]
      exact getName_congr (by rw [Heap.desc, hnode, hop, Heap.desc])
    · rw [hnode]
      exact hr.inputs
    · rw [hnode]
      exact hr.outputs
  · rw [hnodes]
    exact hb.pairs.nodup
  · rw [hnodes]
    have hedges : (firstAsks ((opProtos node).zip (t.graph g).nodes)).filterMap
        (w.edgeOf (firstNamed ((opProtos node).zip (t.graph g).nodes))) = firstEdges t ((opProtos node).zip (t.graph g).nodes) :=
      filterMap_congr fun item hi => edgeOf_congr (fun e _ => congrFun hnode e.2) hi
    refine ⟨fun item hi => ?_, fun e he b hbn => ?_⟩
    · rw [edgeOf_congr (fun e _ => congrFun hnode e.2) hi]
      exact ((linkable_iff hb.pairs).mp hl).1 item hi
    · have hbin : b ∈ t.inAnchors e.2 := by
        simpa only [Heap.inAnchors, hanchorsOf] using hbn
      have hkind := ((mem_inAnchors hb.pairs.sound.laid (hb.pairs.mem he).made).mp hbin).2.2
      rw [hedges, Heap.peers, hanchor, ← Heap.peers, peers_linkAll _ fun d hd heq => ?_,
        hb.free e.2 (of_mem_zip he).2 b hbin, nil_append]
      rw [← heq, (hedge d hd).1.2.2] at hkind
      cases hkind
  · rw [hsubs]
    refine hb.subs.imp fun m y hsub => ?_
    obtain ⟨lo, hi, hulo, hhi, hbuilt, hout⟩ := hsub
    have hkept : Heap.KeptFrom lo hi t w := by
      refine ⟨fun o _ => congrFun hop o, fun n _ => congrFun hnode n, fun a ha hlt => ?_, fun x hx hlt => ?_⟩
      · rw [hanchor]
        -- the ends of the links belong to the nodes of this graph
        have hne : ∀ n ∈ (t.graph g).nodes, ∀ k, a ∉ t.anchorsOf n k := fun n hn k hmem =>
          (hout n hn k a hmem).elim (fun hlow => absurd ha (Nat.not_le.mpr hlow)) fun hhigh => absurd hlt (Nat.not_lt.mpr hhigh)
        refine anchor_linkAll _ fun d hd => ⟨fun heq => ?_, fun heq => ?_⟩
        · obtain ⟨⟨hheld, howner, -⟩, -⟩ := hedge d hd
          exact hne (t.owner d.1) howner (t.kind d.1) (by rw [← heq]; exact hheld.2)
        · obtain ⟨-, n, hn, -, hin⟩ := hedge d hd
          exact (mem_append.mp hin).elim (fun hin => hne n hn _ (heq ▸ hin)) fun hin => hne n hn _ (heq ▸ hin)
      · rw [hw.graph x (Nat.ne_of_gt (Nat.lt_of_lt_of_le hb.made (hulo.graphCount.trans hx))), hsame.graph]
    exact GraphBuilt.widen (Before.trans hlo hulo) (Before.trans hhi hcounts) (GraphBuilt.kept hkept hbuilt)

/-- What is read of a graph once its nodes were. -/
def afterNodes (g : GraphId) (input output : List String) :
    Option (OrderedMap String NodeId × List (NodeProto GraphProto)) → Cmd Heap (Option GraphId)
  | none => return none
  | some (nodeMap, protos) => finish g nodeMap protos input output

/-- Reading the message of a graph at any depth comes to what the message says. -/
theorem decodeGraph_outcome : ∀ (depth : Nat) (m : GraphProto) (h : Heap), h.Sound → GraphOutcome depth m h := by
  intro depth
  induction depth with
  | zero => exact fun m h _ => ⟨fun hd => hd.elim, fun _ _ => ⟨h, rfl⟩, fun hno => absurd trivial hno⟩
  | succ depth ih =>
    rintro ⟨name, input, output, node⟩ h hs
    obtain ⟨start, hstart⟩ : ∃ start : Heap, start =
      { h with graphCount := h.graphCount + 1 }.setGraph h.graphCount { name } := ⟨_, rfl⟩
    have hnew : start.graph h.graphCount = { name } := by simp [hstart]
    have hgrown : Heap.Grown h.graphCount h start := by
      rw [hstart]
      exact ⟨Nat.le_refl _, Nat.le_refl _, Nat.le_refl _, Nat.le_succ _, fun _ _ => rfl, fun _ _ => rfl, fun _ _ => rfl,
        fun y _ hy => by simp [hy]⟩
    have hsound : start.Sound := by
      rw [hstart]
      exact hs.of_anchors rfl rfl rfl rfl
    have hcount : h.graphCount < start.graphCount := by
      rw [hstart]
      exact Nat.lt_succ_self _
    have hbegin : start.NodesBuilt start h.graphCount depth [] [] := by
      refine ⟨Grown.refl _ _, hcount, ⟨hsound, ?_, ?_⟩, fun s => ?_, ?_, ?_⟩
      all_goals rw [hnew]
      · exact .nil
      · exact .nil
      · rfl
      · exact fun n hn => absurd hn not_mem_nil
      · exact .nil
    have hrun : decodeGraph (depth + 1) (.mk name input output node) h =
        (decodeNodes (decodeGraph depth) h.graphCount node [] (opProtos []) >>= afterNodes h.graphCount input output) start := by
      have hmake : ModelSerializeImp.makeGraph name h = some (h.graphCount, start) := by
        rw [hstart]
        rfl
      rw [decodeGraph, bind_of_eq hmake]
      refine congrFun (congrArg _ (funext fun r => ?_)) start
      cases r <;> rfl
    have hnodes := decodeNodes_spec ih node hbegin
    refine ⟨fun hd => ?_, fun hd hthere => ?_, fun hno => ?_⟩
    · obtain ⟨hall, hl, hin, hout⟩ := hd
      obtain ⟨nodeMap, t, ht, hb⟩ := hnodes.read hall
      obtain ⟨w, hw, hsame⟩ := (finish_outcome hb input output).1 ⟨hl, hin, hout⟩
      obtain ⟨hgrown', hsound', -⟩ := finished_of_ends hb hsame
      refine ⟨w, by rw [hrun, bind_of_eq ht]; exact hw, Grown.trans hgrown hgrown', hsound',
        built_of_finished hb (Before.of_grown hgrown) rfl hl hsame⟩
    · by_cases hall : ∀ p ∈ node, NodeDecodes (Decodes depth) p
      · obtain ⟨nodeMap, t, ht, hb⟩ := hnodes.read hall
        obtain ⟨w, hw⟩ := (finish_outcome hb input output).2 fun hand => hd ⟨hall, hand⟩
        exact ⟨w, by rw [hrun, bind_of_eq ht]; exact hw⟩
      · obtain ⟨v, hv⟩ := hnodes.refused hall hthere
        exact ⟨v, by rw [hrun, bind_of_eq hv]; rfl⟩
    · rw [hrun]
      have hnone := hnodes.undefined hno
      simp only [bind, StateT.bind, hnone]
      rfl

end OnnxReadingAux

end Metadef
