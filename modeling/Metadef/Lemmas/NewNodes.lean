import Metadef.Lemmas.AnchorSteps
import Metadef.Lemmas.GraphSteps

/-!
# New nodes

Making a node leaves all other objects, and the links; adding it to a graph lists it last.
-/

namespace Metadef

namespace NewNodesAux

open Cmd AnchorAux Heap

variable {h t : Heap} {g : GraphId} {n : NodeId}

/-! ## Making a node -/

/-- A new data anchor of a node changes the anchors of the node only. -/
theorem appendAnchor_frame (n : NodeId) (k : AnchorKind) (h : Heap) :
    (Node.appendAnchor n k h).op = h.op ∧ (Node.appendAnchor n k h).graph = h.graph ∧
      (Node.appendAnchor n k h).opCount = h.opCount ∧ (Node.appendAnchor n k h).graphCount = h.graphCount ∧
      ((Node.appendAnchor n k h).node n).op = (h.node n).op ∧
      ((Node.appendAnchor n k h).node n).ownerGraph = (h.node n).ownerGraph ∧
      ∀ m, m ≠ n → (Node.appendAnchor n k h).node m = h.node m := by
  cases k <;> simp +contextual [Node.appendAnchor, Heap.setAnchorsOf, Heap.setAnchor, Heap.setNode]

/-- As many new data anchors of a node change the anchors of the node only. -/
theorem appendAnchors_frame (n : NodeId) (k : AnchorKind) (m : Nat) : ∀ h : Heap,
    (Node.appendAnchors n k m h).op = h.op ∧ (Node.appendAnchors n k m h).graph = h.graph ∧
      (Node.appendAnchors n k m h).opCount = h.opCount ∧ (Node.appendAnchors n k m h).graphCount = h.graphCount ∧
      ((Node.appendAnchors n k m h).node n).op = (h.node n).op ∧
      ((Node.appendAnchors n k m h).node n).ownerGraph = (h.node n).ownerGraph ∧
      ∀ x, x ≠ n → (Node.appendAnchors n k m h).node x = h.node x := by
  induction m with
  | zero => exact fun h => ⟨rfl, rfl, rfl, rfl, rfl, rfl, fun _ _ => rfl⟩
  | succ m ih =>
    intro h
    obtain ⟨a1, a2, a3, a4, a5, a6, a7⟩ := appendAnchor_frame n k h
    obtain ⟨b1, b2, b3, b4, b5, b6, b7⟩ := ih (Node.appendAnchor n k h)
    exact ⟨b1.trans a1, b2.trans a2, b3.trans a3, b4.trans a4, b5.trans a5, b6.trans a6, fun x hx => (b7 x hx).trans (a7 x hx)⟩

theorem appendAnchors_length {k k' : AnchorKind} (hk : k.isData) (m : Nat) : ∀ h : Heap,
    ((Node.appendAnchors n k m h).anchorsOf n k').length = (h.anchorsOf n k').length + if k' = k then m else 0 := by
  induction m with
  | zero => simp [Node.appendAnchors]
  | succ m ih =>
    intro h
    rw [Node.appendAnchors, ih, appendAnchor_anchorsOf hk]
    by_cases hkk : k' = k
    · subst hkk
      simp only [and_self, if_true, List.length_append, List.length_singleton]
      omega
    · simp [hkk]

/-- A new node over a descriptor has its graph, and an anchor for each input and output. -/
theorem make_spec (o : OpId) (g : Option GraphId) (h : Heap) : ∃ t, Node.make o g h = some (h.nodeCount, t) ∧
    t.opCount = h.opCount ∧ t.nodeCount = h.nodeCount + 1 ∧ t.graphCount = h.graphCount ∧ t.op = h.op ∧ t.graph = h.graph ∧
      (∀ m < h.nodeCount, t.node m = h.node m) ∧ (t.node h.nodeCount).op = o ∧ (t.node h.nodeCount).ownerGraph = g ∧
      (t.node h.nodeCount).inDataAnchors.length = (h.op o).getAllInputsSize ∧
      (t.node h.nodeCount).outDataAnchors.length = (h.op o).getOutputsSize := by
  refine ⟨_, rfl, ?_⟩
  obtain ⟨a1, a2, a3, a4, a5, a6, a7⟩ := appendAnchors_frame h.nodeCount .inData (h.op o).getAllInputsSize (Node.bare o g h)
  obtain ⟨b1, b2, b3, b4, b5, b6, b7⟩ := appendAnchors_frame h.nodeCount .outData (h.op o).getOutputsSize
    (Node.appendAnchors h.nodeCount .inData (h.op o).getAllInputsSize (Node.bare o g h))
  have hnew : (Node.bare o g h).node h.nodeCount =
      { op := o, ownerGraph := g, inControlAnchor := h.anchorCount, outControlAnchor := h.anchorCount + 1 } := by
    simp [Node.bare]
  have hlength : ∀ k, ((Node.appendAnchors h.nodeCount .outData (h.op o).getOutputsSize
      (Node.appendAnchors h.nodeCount .inData (h.op o).getAllInputsSize (Node.bare o g h))).anchorsOf h.nodeCount k).length =
      ((Node.bare o g h).anchorsOf h.nodeCount k).length + (if k = .inData then (h.op o).getAllInputsSize else 0) +
        if k = .outData then (h.op o).getOutputsSize else 0 := by
    intro k
    rw [appendAnchors_length rfl, appendAnchors_length rfl]
  refine ⟨b3.trans a3, ?_, b4.trans a4, b1.trans a1, b2.trans a2, fun m hm => ?_, ?_, ?_, ?_, ?_⟩
  · rw [appendAnchors_nodeCount, appendAnchors_nodeCount]
    rfl
  · rw [b7 m (Nat.ne_of_lt hm), a7 m (Nat.ne_of_lt hm)]
    simp [Node.bare, Nat.ne_of_lt hm]
  · rw [b5, a5, hnew]
  · rw [b6, a6, hnew]
  · have hin := hlength .inData
    simpa [Heap.anchorsOf, hnew] using hin
  · have hout := hlength .outData
    simpa [Heap.anchorsOf, hnew] using hout

/-- What making a node leaves: the anchors made, and all peers. -/
structure AnchorsGrown (h t : Heap) : Prop where
  sound : t.Sound
  peers : t.peers = h.peers
  anchorCount : h.anchorCount ≤ t.anchorCount
  anchor : ∀ a < h.anchorCount, t.anchor a = h.anchor a
  fresh : ∀ n, h.nodeCount ≤ n → n < t.nodeCount → ∀ k, ∀ a ∈ t.anchorsOf n k, h.anchorCount ≤ a

theorem anchorsGrown_make (hs : h.Sound) (o : OpId) (g : Option GraphId) {n : NodeId} (hr : Node.make o g h = some (n, t)) :
    AnchorsGrown h t := by
  refine keeps_make (P := AnchorsGrown h) (fun u op g hu => ?_) (fun u n k hk hu hn => ?_) o g h n t
    ⟨hs, rfl, Nat.le_refl _, fun _ _ => rfl, fun m hm hlt => absurd hlt (Nat.not_lt.mpr hm)⟩ hr
  · refine ⟨sound_bare hu.sound op g, (bare_peers hu.sound op g).trans hu.peers,
      hu.anchorCount.trans (Nat.le_add_right _ 2), fun a ha => ?_, fun m hm hlt k a ha => ?_⟩
    · exact (bare_anchor op g (Nat.lt_of_lt_of_le ha hu.anchorCount)).trans (hu.anchor a ha)
    · rcases Nat.lt_succ_iff_lt_or_eq.mp hlt with hlt | rfl
      · rw [bare_anchorsOf op g hlt] at ha
        exact hu.fresh m hm hlt k a ha
      · -- the new node has its control anchors only
        cases k with
        | inData | outData => simp [Node.bare, Heap.anchorsOf] at ha
        | inControl =>
          obtain rfl : a = u.anchorCount := by simpa [Node.bare, Heap.anchorsOf] using ha
          exact hu.anchorCount
        | outControl =>
          obtain rfl : a = u.anchorCount + 1 := by simpa [Node.bare, Heap.anchorsOf] using ha
          exact Nat.le_succ_of_le hu.anchorCount
  · refine ⟨sound_appendAnchor hu.sound hk hn, (appendAnchor_peers hu.sound).trans hu.peers, ?_, fun a ha => ?_,
      fun m hm hlt k' a ha => ?_⟩
    · rw [appendAnchor_anchorCount]
      exact Nat.le_succ_of_le hu.anchorCount
    · rw [appendAnchor_anchor, if_neg (Nat.ne_of_lt (Nat.lt_of_lt_of_le ha hu.anchorCount))]
      exact hu.anchor a ha
    · rw [appendAnchor_nodeCount] at hlt
      rw [appendAnchor_anchorsOf hk] at ha
      split at ha
      · rename_i he
        rw [he.1] at hm
        rcases List.mem_append.mp ha with ha | ha
        · exact hu.fresh n hm hn k a ha
        · rw [List.mem_singleton.mp ha]
          exact hu.anchorCount
      · exact hu.fresh m hm hlt k' a ha

/-! ## Adding it to a graph -/

/-- What adding a node over a descriptor leaves of a heap, and what the node is. -/
structure NodeAdded (h : Heap) (g : GraphId) (o : OpId) (t : Heap) : Prop where
  anchors : AnchorsGrown h t
  opCount : t.opCount = h.opCount
  nodeCount : t.nodeCount = h.nodeCount + 1
  graphCount : t.graphCount = h.graphCount
  ops : ∀ p, p ≠ o → t.op p = h.op p
  nodes : ∀ m < h.nodeCount, t.node m = h.node m
  graphs : ∀ y, y ≠ g → t.graph y = h.graph y
  listed : t.graph g = (h.graph g).pushBackToNodeList h.nodeCount
  desc : ∃ i, t.op o = (h.op o).setId i
  op : (t.node h.nodeCount).op = o
  inputs : (t.node h.nodeCount).inDataAnchors.length = (h.op o).getAllInputsSize
  outputs : (t.node h.nodeCount).outDataAnchors.length = (h.op o).getOutputsSize

/-- What putting a new node over a descriptor into a graph leaves of a heap, with what becomes of the graph. -/
structure NodePut (h : Heap) (g : GraphId) (o : OpId) (t : Heap) (x : ComputeGraph) : Prop where
  anchors : AnchorsGrown h t
  opCount : t.opCount = h.opCount
  nodeCount : t.nodeCount = h.nodeCount + 1
  graphCount : t.graphCount = h.graphCount
  ops : ∀ p, p ≠ o → t.op p = h.op p
  nodes : ∀ m < h.nodeCount, t.node m = h.node m
  graphs : ∀ y, y ≠ g → t.graph y = h.graph y
  graph : t.graph g = x
  desc : ∃ i, t.op o = (h.op o).setId i
  op : (t.node h.nodeCount).op = o
  inputs : (t.node h.nodeCount).inDataAnchors.length = (h.op o).getAllInputsSize
  outputs : (t.node h.nodeCount).outDataAnchors.length = (h.op o).getOutputsSize

/-- The functions that add a node number its descriptor, tell it the graph, and write the graph. -/
def put (g : GraphId) (o : OpId) (n : NodeId) (x : ComputeGraph) (t : Heap) : Heap :=
  ((t.setNode n { t.node n with hostNode := (t.graph g).isValidFlag }).setOp o
    ((t.op o).setId (t.graph g).directNodesSize)).setGraph g x

theorem put_spec (hs : h.Sound) (g : GraphId) (o : OpId) : ∃ t,
    Node.make o (some g) (h.setOp o ((h.op o).setId (h.graph g).directNodesSize)) = some (h.nodeCount, t) ∧
      t.graph = h.graph ∧ (t.node h.nodeCount).op = o ∧ ∀ x, NodePut h g o (put g o h.nodeCount x t) x := by
  obtain ⟨start, hstart⟩ : ∃ start, start = h.setOp o ((h.op o).setId (h.graph g).directNodesSize) := ⟨_, rfl⟩
  have hsound : start.Sound := hs.of_anchors (by rw [hstart]; rfl) (by rw [hstart]; rfl)
    (by rw [hstart]; funext m k; cases k <;> rfl)
    (by rw [hstart]; rfl)
  obtain ⟨t, hmake, hops, hnodes, hgraphs, hop, hgraph, hnode, hnewOp, -, hin, hout⟩ := make_spec o g start
  have hgrown := anchorsGrown_make hsound _ _ hmake
  have hcount : start.nodeCount = h.nodeCount := by rw [hstart]; rfl
  rw [hcount] at hmake hnewOp hin hout hnode
  refine ⟨t, hstart ▸ hmake, hgraph.trans (by rw [hstart]; rfl), hnewOp, fun x => ?_⟩
  obtain ⟨made, hmade⟩ : ∃ made, made = put g o h.nodeCount x t := ⟨_, rfl⟩
  rw [← hmade]
  have hanchor : made.anchor = t.anchor := by rw [hmade]; rfl
  have hanchors : ∀ m k, made.anchorsOf m k = t.anchorsOf m k := by
    intro m k
    rw [hmade]
    by_cases hm : m = h.nodeCount
    · subst hm
      cases k <;> simp [Heap.anchorsOf, put]
    · cases k <;> simp [Heap.anchorsOf, put, hm]
  have hsize : ∀ d : OpDesc, ∀ i, (d.setId i).getAllInputsSize = d.getAllInputsSize ∧ (d.setId i).getOutputsSize =
    d.getOutputsSize :=
    fun _ _ => ⟨rfl, rfl⟩
  have hnew : start.op o = (h.op o).setId (h.graph g).directNodesSize := by simp [hstart]
  refine ⟨⟨hgrown.sound.of_anchors (by rw [hmade]; rfl) (by rw [hmade]; rfl) (funext fun m => funext fun k => hanchors m k) hanchor,
    ?_, ?_, fun a ha => ?_, fun m hm hlt k a ha => ?_⟩, ?_, ?_, ?_, fun p hp => ?_, fun m hm => ?_, fun y hy => ?_, ?_, ?_, ?_,
      ?_, ?_⟩
  · funext a
    rw [Heap.peers, hanchor, ← Heap.peers, hgrown.peers, hstart]
    rfl
  · rw [hmade]
    exact (show h.anchorCount = start.anchorCount by rw [hstart]; rfl) ▸ hgrown.anchorCount
  · rw [hanchor, hgrown.anchor a (by rw [hstart]; exact ha), hstart]
    rfl
  · rw [hanchors] at ha
    have hle := hgrown.fresh m (by rwa [hcount]) (by rw [hmade] at hlt; exact hlt) k a ha
    rwa [show start.anchorCount = h.anchorCount by rw [hstart]; rfl] at hle
  · rw [hmade]
    exact hops.trans (by rw [hstart]; rfl)
  · rw [hmade]
    exact hnodes.trans (by rw [hcount])
  · rw [hmade]
    exact hgraphs.trans (by rw [hstart]; rfl)
  · rw [hmade, put, setGraph_op, setOp_op, if_neg hp, setNode_op, hop, hstart, setOp_op, if_neg hp]
  · rw [hmade, put, setGraph_node, setOp_node, setNode_node, if_neg (Nat.ne_of_lt hm), hnode m hm, hstart]
    rfl
  · rw [hmade, put, setGraph_graph, if_neg hy]
    show t.graph y = _
    rw [hgraph, hstart]
    rfl
  · rw [hmade, put, setGraph_graph, if_pos rfl]
  · refine ⟨(t.graph g).directNodesSize, ?_⟩
    rw [hmade, put, setGraph_op, setOp_op, if_pos rfl, hop, hnew]
    rfl
  · rw [hmade]
    simp [put, hnewOp]
  · have hsame : made.anchorsOf h.nodeCount .inData = t.anchorsOf h.nodeCount .inData := hanchors _ _
    exact (congrArg List.length hsame).trans (hin.trans (by rw [hnew, (hsize _ _).1]))
  · have hsame : made.anchorsOf h.nodeCount .outData = t.anchorsOf h.nodeCount .outData := hanchors _ _
    exact (congrArg List.length hsame).trans (hout.trans (by rw [hnew, (hsize _ _).2]))

theorem addOpNode_adds (hs : h.Sound) (g : GraphId) (o : OpId) :
    ∃ t, ComputeGraph.addOpNode g (some o) h = some (some h.nodeCount, t) ∧ NodeAdded h g o t := by
  obtain ⟨t, hmake, hgraph, hnewOp, hput⟩ := put_spec hs g o
  have hp := hput ((t.graph g).pushBackToNodeList h.nodeCount)
  refine ⟨_, ?_, ⟨hp.anchors, hp.opCount, hp.nodeCount, hp.graphCount, hp.ops, hp.nodes, hp.graphs, by rw [hp.graph, hgraph],
    hp.desc, hp.op,
    hp.inputs, hp.outputs⟩⟩
  unfold ComputeGraph.addOpNode
  dsimp only
  rw [modify_bind_apply, bind_of_eq hmake]
  simp only [ComputeGraph.addNode, modify_bind_apply, pure_apply, setNode_graph, setNode_node, if_true, setOp_graph,
    hnewOp, Heap.desc, setNode_op, put]

/-- Adding a node at the front of a graph lists it at the first or the second place. -/
theorem addOpNodeFront_puts (hs : h.Sound) (g : GraphId) (o : OpId) : ∃ t i,
    ComputeGraph.addOpNodeFront g (some o) h = some (some h.nodeCount, t) ∧
      NodePut h g o t ((h.graph g).insertToNodeList i h.nodeCount) := by
  obtain ⟨t, hmake, hgraph, hnewOp, hput⟩ := put_spec hs g o
  have hrun : ∃ i, ComputeGraph.addOpNodeFront g (some o) h =
      some (some h.nodeCount, put g o h.nodeCount ((h.graph g).insertToNodeList i h.nodeCount) t) := by
    unfold ComputeGraph.addOpNodeFront
    dsimp only
    rw [modify_bind_apply, bind_of_eq hmake]
    simp only [ComputeGraph.addNodeFront, ComputeGraph.edit, modify_bind_apply, get_bind_apply, pure_apply, setNode_graph,
      setNode_node, if_true, setOp_graph, hnewOp, Heap.desc, setNode_op, put, hgraph]
    exact ⟨_, rfl⟩
  obtain ⟨i, hi⟩ := hrun
  exact ⟨_, i, hi, hput _⟩

end NewNodesAux

end Metadef
