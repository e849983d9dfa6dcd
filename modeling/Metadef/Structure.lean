import Metadef.Edges

/-!
# The structure of graphs

What makes up a graph apart from what its operators do: its nodes by name and type, the edges into them, and its inputs and outputs.
Objects made later, and links of other nodes, leave it.
-/

namespace Metadef

open List

/-- The nodes of a graph in order, the edges into them, and its inputs and outputs. -/
structure GraphStructure where
  nodes : List (String × String)
  edges : Multiset EdgeName
  inputs : List String
  outputs : List (String × Int)
  deriving DecidableEq

namespace Heap

variable (h : Heap)

/-- The edges into nodes, by name. -/
def edgesInto (nodes : List NodeId) : List EdgeName :=
  (nodes.flatMap h.inAnchors).flatMap fun b => (h.peers b).map fun a => h.edgeName a b

/-- The structure of a graph. -/
def structureOf (g : GraphId) : GraphStructure :=
  { nodes := (h.graph g).nodes.map fun n => (Node.getName h n, Node.getType h n)
    edges := h.edgesInto (h.graph g).nodes
    inputs := (h.graph g).inputNodes.map (Node.getName h)
    outputs := (h.graph g).outputNodesInfo.map fun e => (Node.getName h e.1, e.2) }

/-- A graph that was made with its nodes, and whose inputs, outputs and the sources of whose links are among them. -/
structure GraphMade (g : GraphId) : Prop where
  made : g < h.graphCount
  nodes : ∀ n ∈ (h.graph g).nodes, n < h.nodeCount ∧ (h.node n).op < h.opCount
  inputs : ∀ n ∈ (h.graph g).inputNodes, n ∈ (h.graph g).nodes
  outputs : ∀ e ∈ (h.graph g).outputNodesInfo, e.1 ∈ (h.graph g).nodes
  sources : ∀ n ∈ (h.graph g).nodes, ∀ b ∈ h.inAnchors n, ∀ a ∈ h.peers b, h.owner a ∈ (h.graph g).nodes

/-- New objects only, but for what a graph lists. -/
structure Grown (g : GraphId) (h h' : Heap) : Prop where
  opCount : h.opCount ≤ h'.opCount
  nodeCount : h.nodeCount ≤ h'.nodeCount
  anchorCount : h.anchorCount ≤ h'.anchorCount
  graphCount : h.graphCount ≤ h'.graphCount
  op : ∀ o < h.opCount, h'.op o = h.op o
  node : ∀ n < h.nodeCount, h'.node n = h.node n
  anchor : ∀ a < h.anchorCount, h'.anchor a = h.anchor a
  graph : ∀ x < h.graphCount, x ≠ g → h'.graph x = h.graph x

end Heap

namespace StructureAux

variable {h t u : Heap} {g x : GraphId}

/-! ## New objects -/

theorem Grown.refl (g : GraphId) (h : Heap) : Heap.Grown g h h :=
  ⟨Nat.le_refl _, Nat.le_refl _, Nat.le_refl _, Nat.le_refl _, fun _ _ => rfl, fun _ _ => rfl, fun _ _ => rfl, fun _ _ _ => rfl⟩

theorem Grown.trans (h₁ : Heap.Grown g h t) (h₂ : Heap.Grown g t u) : Heap.Grown g h u where
  opCount := h₁.opCount.trans h₂.opCount
  nodeCount := h₁.nodeCount.trans h₂.nodeCount
  anchorCount := h₁.anchorCount.trans h₂.anchorCount
  graphCount := h₁.graphCount.trans h₂.graphCount
  op o ho := (h₂.op o (Nat.lt_of_lt_of_le ho h₁.opCount)).trans (h₁.op o ho)
  node n hn := (h₂.node n (Nat.lt_of_lt_of_le hn h₁.nodeCount)).trans (h₁.node n hn)
  anchor a ha := (h₂.anchor a (Nat.lt_of_lt_of_le ha h₁.anchorCount)).trans (h₁.anchor a ha)
  graph y hy hne := (h₂.graph y (Nat.lt_of_lt_of_le hy h₁.graphCount) hne).trans (h₁.graph y hy hne)

/-- What a graph made anew lists is new too. -/
theorem Grown.of_new (hg : Heap.Grown h.graphCount h t) (g : GraphId) : Heap.Grown g h t :=
  { hg with graph := fun y hy _ => hg.graph y hy (Nat.ne_of_lt hy) }

variable {n : NodeId}

theorem Grown.desc (hg : Heap.Grown g h t) (hn : n < h.nodeCount) (ho : (h.node n).op < h.opCount) : t.desc n = h.desc n := by
  rw [Heap.desc, hg.node n hn, hg.op _ ho, Heap.desc]

theorem Grown.anchorsOf (hg : Heap.Grown g h t) (hn : n < h.nodeCount) (k : AnchorKind) : t.anchorsOf n k = h.anchorsOf n k := by
  cases k <;> simp only [Heap.anchorsOf, hg.node n hn]

theorem Grown.inAnchors (hg : Heap.Grown g h t) (hn : n < h.nodeCount) : t.inAnchors n = h.inAnchors n := by
  unfold Heap.inAnchors
  rw [Grown.anchorsOf hg hn, Grown.anchorsOf hg hn]

/-! ## Keeping the structure -/

theorem getName_congr (hd : t.desc n = h.desc n) : Node.getName t n = Node.getName h n := by
  rw [Node.getName, hd, Node.getName]

theorem getType_congr (hd : t.desc n = h.desc n) : Node.getType t n = Node.getType h n := by
  rw [Node.getType, hd, Node.getType]

theorem edgeName_congr {a b : AnchorId} (ha : t.kind a = h.kind a ∧ t.owner a = h.owner a ∧ (t.anchor a).idx = (h.anchor a).idx)
    (hb : t.kind b = h.kind b ∧ t.owner b = h.owner b ∧ (t.anchor b).idx = (h.anchor b).idx)
    (hda : t.desc (h.owner a) = h.desc (h.owner a)) (hdb : t.desc (h.owner b) = h.desc (h.owner b)) :
    t.edgeName a b = h.edgeName a b := by
  unfold Heap.edgeName Heap.anchorIdx
  rw [ha.1, ha.2.1, ha.2.2, hb.1, hb.2.1, hb.2.2, getName_congr hda, getName_congr hdb]

/-- A graph keeps its structure where its nodes, and the peers of their inputs, stay. -/
theorem structureOf_congr (hs : h.Sound) (hm : h.GraphMade g) (hnodes : (t.graph g).nodes = (h.graph g).nodes)
    (hinputs : (t.graph g).inputNodes = (h.graph g).inputNodes)
    (houtputs : (t.graph g).outputNodesInfo = (h.graph g).outputNodesInfo)
    (hnode : ∀ n ∈ (h.graph g).nodes, t.node n = h.node n ∧ t.desc n = h.desc n)
    (hanchor : ∀ n ∈ (h.graph g).nodes, ∀ k, ∀ a ∈ h.anchorsOf n k,
      t.kind a = h.kind a ∧ t.owner a = h.owner a ∧ (t.anchor a).idx = (h.anchor a).idx)
    (hpeers : ∀ n ∈ (h.graph g).nodes, ∀ b ∈ h.inAnchors n, t.peers b = h.peers b) : t.structureOf g = h.structureOf g := by
  have hname : ∀ n ∈ (h.graph g).nodes, Node.getName t n = Node.getName h n := fun n hn => getName_congr (hnode n hn).2
  have hin : ∀ n ∈ (h.graph g).nodes, t.inAnchors n = h.inAnchors n := by
    intro n hn
    simp only [Heap.inAnchors, Heap.anchorsOf, (hnode n hn).1]
  have hedges : t.edgesInto (h.graph g).nodes = h.edgesInto (h.graph g).nodes := by
    unfold Heap.edgesInto
    rw [flatMap_congr hin]
    refine flatMap_congr fun b hb => ?_
    obtain ⟨n, hn, hb⟩ := List.mem_flatMap.mp hb
    rw [hpeers n hn b hb]
    refine map_congr_left fun a ha => ?_
    obtain ⟨hbheld, hbn, -⟩ := (Heap.mem_inAnchors hs.laid (hm.nodes n hn).1).mp hb
    have haheld := hs.peersHeld b a ha
    have hao := hm.sources n hn b hb a ha
    exact edgeName_congr (hanchor _ hao _ a haheld.2) (hanchor n hn _ b (hbn ▸ hbheld.2)) (hnode _ hao).2 (hbn ▸ (hnode n hn).2)
  unfold Heap.structureOf
  rw [hnodes, hinputs, houtputs, hedges, GraphStructure.mk.injEq]
  refine ⟨map_congr_left fun n hn => ?_, rfl, map_congr_left fun n hn => hname n (hm.inputs n hn),
    map_congr_left fun e he => ?_⟩
  · rw [hname n hn, getType_congr (hnode n hn).2]
  · rw [hname e.1 (hm.outputs e he)]

/-- New objects leave the structure of a graph, and the graph made. -/
theorem Grown.structureOf (hs : h.Sound) (hm : h.GraphMade x) (hg : Heap.Grown g h t) (hne : x ≠ g) :
    t.GraphMade x ∧ t.structureOf x = h.structureOf x := by
  have hgraph := hg.graph x hm.made hne
  have hpeers : ∀ n ∈ (h.graph x).nodes, ∀ b ∈ h.inAnchors n, t.peers b = h.peers b := by
    intro n hn b hb
    obtain ⟨hheld, -⟩ := (Heap.mem_inAnchors hs.laid (hm.nodes n hn).1).mp hb
    rw [Heap.peers, hg.anchor b (hs.laid.made _ hheld.1 _ b hheld.2), Heap.peers]
  refine ⟨⟨Nat.lt_of_lt_of_le hm.made hg.graphCount, ?_, ?_, ?_, ?_⟩, ?_⟩
  · intro n hn
    rw [hgraph] at hn
    obtain ⟨hlt, ho⟩ := hm.nodes n hn
    rw [hg.node n hlt]
    exact ⟨Nat.lt_of_lt_of_le hlt hg.nodeCount, Nat.lt_of_lt_of_le ho hg.opCount⟩
  · rw [hgraph]
    exact hm.inputs
  · rw [hgraph]
    exact hm.outputs
  · rw [hgraph]
    intro n hn b hb a ha
    rw [Grown.inAnchors hg (hm.nodes n hn).1] at hb
    rw [hpeers n hn b hb] at ha
    have hheld := hs.peersHeld b a ha
    rw [Heap.owner, hg.anchor a (hs.laid.made _ hheld.1 _ a hheld.2)]
    exact hm.sources n hn b hb a ha
  · refine structureOf_congr hs hm (by rw [hgraph]) (by rw [hgraph]) (by rw [hgraph]) (fun n hn => ?_)
      (fun n hn k a ha => ?_) hpeers
    · obtain ⟨hlt, ho⟩ := hm.nodes n hn
      exact ⟨hg.node n hlt, Grown.desc hg hlt ho⟩
    · have hanchor := hg.anchor a (hs.laid.made n (hm.nodes n hn).1 k a ha)
      rw [Heap.kind, Heap.owner, hanchor]
      exact ⟨rfl, rfl, rfl⟩

end StructureAux

end Metadef
