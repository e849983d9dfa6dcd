import Metadef.Lemmas.OnnxNodes

/-!
# Graphs read from a dump

The nodes of a graph that was written are read back one for one, without links. Then the links each is written with are made when their
ends are found, and the inputs and the outputs are entered.
-/

namespace Metadef

open List OrderedMap

/-- A node read back from what another was written as. -/
structure Heap.NodeCopied (attrs : NodeId → List (String × Int)) (h t : Heap) (n n' : NodeId) : Prop where
  made : n' < t.nodeCount
  opMade : (t.node n').op < t.opCount
  name : Node.getName t n' = Node.getName h n
  type : Node.getType t n' = Node.getType h n
  inputs : (t.node n').inDataAnchors.length = OnnxUtils.inputsRead attrs h n
  outputs : (t.node n').outDataAnchors.length = OnnxUtils.outputsRead attrs h n

/-- The nodes of a graph read so far, from a heap in which it lists none: they are new, and known by name. -/
structure Heap.NodesDecoded (attrs : NodeId → List (String × Int)) (h u t : Heap) (g : GraphId) (nodes : List NodeId)
    (nodeMap : OrderedMap String NodeId) : Prop where
  grown : Heap.Grown g u t
  sound : t.Sound
  peers : t.peers = u.peers
  graphCount : t.graphCount = u.graphCount
  listed : t.graph g = { u.graph g with nodes := (t.graph g).nodes, directNodesSize := (t.graph g).directNodesSize }
  copied : List.Forall₂ (h.NodeCopied attrs t) nodes (t.graph g).nodes
  fresh : ∀ n ∈ (t.graph g).nodes, u.nodeCount ≤ n ∧ ∀ k, ∀ a ∈ t.anchorsOf n k, u.anchorCount ≤ a
  nodup : (t.graph g).nodes.Nodup
  found : ∀ e ∈ nodes.zip (t.graph g).nodes, nodeMap.find (Node.getName h e.1) = some e.2
  known : ∀ s n, nodeMap.find s = some n → ∃ e ∈ nodes.zip (t.graph g).nodes, Node.getName h e.1 = s ∧ e.2 = n

namespace OnnxGraphsAux

open Cmd OnnxUtils OnnxNodesAux StructureAux LoadingAux WrittenLinksAux LinkListsAux NewNodesAux

variable {attrs : NodeId → List (String × Int)} {level : DumpLevel} {h t u v : Heap} {g x : GraphId} {n n' : NodeId}

theorem exists_of_forall₂ {α β : Type} {r : α → β → Prop} {l : List α} {l' : List β} (hl : List.Forall₂ r l l') {x : α}
    (hx : x ∈ l) : ∃ y ∈ l', r x y := by
  obtain ⟨i, hi, rfl⟩ := mem_iff_getElem.mp hx
  have hi' : i < l'.length := hl.length_eq ▸ hi
  exact ⟨l'[i], getElem_mem hi', hl.get hi hi'⟩

/-! ## Making a node -/

/-- A descriptor that is new and a node over it. -/
theorem addOpNode_spec (hs : h.Sound) (op : OpDesc) (g : GraphId) :
    ∃ t, ComputeGraph.addOpNode g (some h.opCount) (LinkCall.makeOp op h) = some (some h.nodeCount, t) ∧ Heap.Grown g h t ∧
      t.Sound ∧ t.peers = h.peers ∧ t.graphCount = h.graphCount ∧ t.graph g = (h.graph g).pushBackToNodeList h.nodeCount ∧
      h.nodeCount < t.nodeCount ∧ (t.node h.nodeCount).op < t.opCount ∧ Node.getName t h.nodeCount = op.getName ∧
      Node.getType t h.nodeCount = op.getType ∧ (t.node h.nodeCount).inDataAnchors.length = op.getAllInputsSize ∧
      (t.node h.nodeCount).outDataAnchors.length = op.getOutputsSize ∧
      ∀ k, ∀ a ∈ t.anchorsOf h.nodeCount k, h.anchorCount ≤ a := by
  have hnew : (LinkCall.makeOp op h).op h.opCount = op := by simp [LinkCall.makeOp]
  have hsound : (LinkCall.makeOp op h).Sound := hs.of_anchors rfl rfl (by funext m k; cases k <;> rfl) rfl
  obtain ⟨t, hrun, ha⟩ := addOpNode_adds hsound g h.opCount
  obtain ⟨i, hdesc⟩ := ha.desc
  rw [hnew] at hdesc
  have hmade : t.desc h.nodeCount = op.setId i := (congrArg t.op ha.op).trans hdesc
  have hlt : h.nodeCount < t.nodeCount := ha.nodeCount ▸ Nat.lt_succ_self h.nodeCount
  have hcount : t.opCount = h.opCount + 1 := ha.opCount
  refine ⟨t, hrun, ⟨?_, hlt.le, ha.anchors.anchorCount, Nat.le_of_eq ha.graphCount.symm, fun o ho => ?_, ha.nodes,
    ha.anchors.anchor, fun y _ hne => ha.graphs y hne⟩, ha.anchors.sound, ha.anchors.peers, ha.graphCount, ha.listed, hlt, ?_, ?_,
    ?_, ?_, ?_, ha.anchors.fresh _ (Nat.le_refl _) hlt⟩
  · rw [hcount]
    exact Nat.le_succ _
  · rw [ha.ops o (Nat.ne_of_lt ho)]
    simp [LinkCall.makeOp, Nat.ne_of_lt ho]
  · rw [show (t.node h.nodeCount).op = h.opCount from ha.op, hcount]
    exact Nat.lt_succ_self _
  · rw [Node.getName, hmade]
    rfl
  · rw [Node.getType, hmade]
    rfl
  · exact ha.inputs.trans (by rw [hnew])
  · exact ha.outputs.trans (by rw [hnew])

/-! ## Reading the nodes -/

theorem NodeCopied.grown (hn : h.NodeCopied attrs t n n') (hg : Heap.Grown g t v) : h.NodeCopied attrs v n n' := by
  have hdesc := Grown.desc hg hn.made hn.opMade
  have hnode := hg.node n' hn.made
  refine ⟨Nat.lt_of_lt_of_le hn.made hg.nodeCount, ?_, (getName_congr hdesc).trans hn.name,
    (getType_congr hdesc).trans hn.type, ?_, ?_⟩
  · rw [hnode]
    exact Nat.lt_of_lt_of_le hn.opMade hg.opCount
  · rw [hnode]
    exact hn.inputs
  · rw [hnode]
    exact hn.outputs

theorem encodeNode_opType (n : NodeId) : (encodeNode attrs level h n).opType ≠ nodeTypeForSubgraph := by
  intro he
  have hlist := congrArg String.toList he
  rw [show (encodeNode attrs level h n).opType = "ge:" ++ Node.getType h n from rfl, String.toList_append] at hlist
  exact absurd (List.cons.inj hlist).1 (by decide)

/-- Reading one more node. -/
theorem NodesDecoded.next {nodes : List NodeId} {nodeMap : OrderedMap String NodeId} {op : OpDesc}
    (hd : h.NodesDecoded attrs u t g nodes nodeMap) (hnew : Node.getName h n ∉ nodes.map (Node.getName h))
    (hname : op.getName = Node.getName h n) (htype : op.getType = Node.getType h n)
    (hin : op.getAllInputsSize = inputsRead attrs h n) (hout : op.getOutputsSize = outputsRead attrs h n) :
    ∃ v, ComputeGraph.addOpNode g (some t.opCount) (LinkCall.makeOp op t) = some (some t.nodeCount, v) ∧
      h.NodesDecoded attrs u v g (nodes ++ [n]) (nodeMap.insert (Node.getName h n) t.nodeCount) := by
  obtain ⟨v, hrun, hgrown, hsound, hpeers, hgraphs, hgraph, hmade, hopMade, hvname, hvtype, hvin, hvout, hvnew⟩ :=
    addOpNode_spec hd.sound op g
  have hnodes : (v.graph g).nodes = (t.graph g).nodes ++ [t.nodeCount] := by rw [hgraph]; rfl
  have hlen := hd.copied.length_eq
  have hzip : (nodes ++ [n]).zip (v.graph g).nodes = nodes.zip (t.graph g).nodes ++ [(n, t.nodeCount)] := by
    rw [hnodes, zip_append hlen]
    rfl
  -- no node that was read has the name of the new one
  have hunknown : nodeMap.contains (Node.getName h n) = false := by
    rw [← find_eq_none, Option.eq_none_iff_forall_not_mem]
    intro m hm
    obtain ⟨e, he, hs, -⟩ := hd.known _ m hm
    exact hnew (hs ▸ mem_map_of_mem (of_mem_zip he).1)
  refine ⟨v, hrun, Grown.trans hd.grown hgrown, hsound, hpeers.trans hd.peers, hgraphs.trans hd.graphCount, ?_, ?_, ?_, ?_, ?_, ?_⟩
  · rw [hgraph, hd.listed]
    rfl
  · rw [hnodes]
    exact rel_append (hd.copied.imp fun _ _ hc => NodeCopied.grown hc hgrown)
      (.cons ⟨hmade, hopMade, hvname.trans hname, hvtype.trans htype, hvin.trans hin, hvout.trans hout⟩ .nil)
  · intro m hm
    rw [hnodes, mem_append, mem_singleton] at hm
    rcases hm with hm | rfl
    · obtain ⟨hold, hanchors⟩ := hd.fresh m hm
      obtain ⟨x, -, hc⟩ := exists_of_forall₂ hd.copied.flip hm
      refine ⟨hold, fun k a ha => hanchors k a ?_⟩
      rwa [Grown.anchorsOf hgrown hc.made] at ha
    · exact ⟨hd.grown.nodeCount, fun k a ha => hd.grown.anchorCount.trans (hvnew k a ha)⟩
  · rw [hnodes]
    refine nodup_append.mpr ⟨hd.nodup, nodup_singleton _, fun a ha b hb hab => ?_⟩
    obtain rfl := mem_singleton.mp hb
    obtain ⟨i, hi, rfl⟩ := mem_iff_getElem.mp ha
    have hc := hd.copied.get (hlen ▸ hi) hi
    exact absurd hab (Nat.ne_of_lt hc.made)
  · intro e he
    rw [hzip, mem_append, mem_singleton] at he
    rw [find_insert]
    rcases he with he | rfl
    · have hne : Node.getName h e.1 ≠ Node.getName h n := fun hs => hnew (hs ▸ mem_map_of_mem (of_mem_zip he).1)
      simp [hne, hd.found e he]
    · simp [hunknown]
  · intro s m hm
    rw [find_insert] at hm
    rw [hzip]
    split at hm
    · rename_i hs
      exact ⟨(n, t.nodeCount), by simp, by simpa [eq_comm] using hs.1, Option.some.inj hm⟩
    · obtain ⟨e, he, hes⟩ := hd.known s m hm
      exact ⟨e, mem_append_left _ he, hes⟩

/-- The nodes a graph is written with are read, and the loop goes on behind them. -/
theorem decodeNodes_written (hlevel : level ≠ .dumpWithOutDesc) (sub : GraphProto → Cmd Heap (Option GraphId))
    (more : List (NodeProto GraphProto)) (l : List NodeId) : ∀ {nodes : List NodeId} {nodeMap : OrderedMap String NodeId} {t : Heap}
    (protos : List (NodeProto GraphProto)), h.NodesDecoded attrs u t g nodes nodeMap →
    ((nodes ++ l).map (Node.getName h)).Nodup → ∃ nodeMap' v,
      decodeNodes sub g (l.map (encodeNode attrs level h) ++ more) nodeMap protos t =
        decodeNodes sub g more nodeMap' (protos ++ l.map (encodeNode attrs level h)) v ∧
      h.NodesDecoded attrs u v g (nodes ++ l) nodeMap' := by
  induction l with
  | nil =>
    intro nodes nodeMap t protos hd _
    exact ⟨nodeMap, t, by simp, by rwa [append_nil]⟩
  | cons n l ih =>
    intro nodes nodeMap t protos hd hnames
    obtain ⟨op, hop, hname, htype, hin, hout⟩ := decodeNodeDesc_spec attrs hlevel h n
    have hsplit : nodes ++ n :: l = nodes ++ [n] ++ l := by simp
    have hnew : Node.getName h n ∉ nodes.map (Node.getName h) := by
      rw [map_append, map_cons] at hnames
      intro hmem
      exact (nodup_append.mp hnames).2.2 _ hmem _ mem_cons_self rfl
    obtain ⟨v, hrun, hdec⟩ := NodesDecoded.next hd hnew hname htype hin hout
    rw [hsplit] at hnames
    obtain ⟨nodeMap', w, hrest, hdone⟩ := ih (protos ++ [encodeNode attrs level h n]) hdec hnames
    refine ⟨nodeMap', w, ?_, hsplit ▸ hdone⟩
    rw [map_cons, cons_append, decodeNodes, if_neg (encodeNode_opType n), hop]
    dsimp only
    rw [get_bind_apply, modify_bind_apply, bind_of_eq hrun]
    dsimp only
    rw [show (encodeNode attrs level h n).name = Node.getName h n from rfl, hrest]
    simp

end OnnxGraphsAux

end Metadef
