import Metadef.Lemmas.SortOrder

/-!
# Graphs with the same nodes and edges

Two graphs may have the same nodes and edges and differ in the order the nodes were added in and the edges linked in. What
sorting counts is the same in both.
-/

namespace Metadef

open List Function

open Heap ComputeGraph SortRuns SortOrder EdgeCounts

/-- Two graphs have the same nodes and edges: the nodes and anchors of one are mapped to those of the other. The nodes may be
listed, and the links of an anchor made, in another order. -/
structure Heap.SameGraph (h : Heap) (g : GraphId) (h' : Heap) (g' : GraphId) (node : NodeId → NodeId)
    (anchor : AnchorId → AnchorId) : Prop where
  nodes : ((h.graph g).nodes.map node).Perm (h'.graph g').nodes
  name : ∀ n ∈ (h.graph g).nodes, Node.getName h' (node n) = Node.getName h n
  type : ∀ n ∈ (h.graph g).nodes, Node.getType h' (node n) = Node.getType h n
  anchors : ∀ n ∈ (h.graph g).nodes, ∀ k, h'.anchorsOf (node n) k = (h.anchorsOf n k).map anchor
  links : ∀ n ∈ (h.graph g).nodes, ∀ k, ∀ a ∈ h.anchorsOf n k, (h'.peers (anchor a)).Perm ((h.peers a).map anchor)
  inputsOrder : (h'.graph g').inputsOrder = (h.graph g).inputsOrder

namespace SameGraphs

section
variable {h h' : Heap} {g g' : GraphId} {node : NodeId → NodeId} {anchor : AnchorId → AnchorId} {n : NodeId} {k : AnchorKind}
  {a b : AnchorId}

/-! ## The names of nodes -/

section
variable (hsame : SameGraph h g h' g' node anchor) (hnames : ((h.graph g).nodes.map (Node.getName h)).Nodup)
include hsame

theorem mem_node (hn : n ∈ (h.graph g).nodes) : node n ∈ (h'.graph g').nodes :=
  hsame.nodes.mem_iff.mp (mem_map_of_mem hn)

theorem exists_node {n' : NodeId} (hn' : n' ∈ (h'.graph g').nodes) : ∃ n ∈ (h.graph g).nodes, node n = n' :=
  List.mem_map.mp (hsame.nodes.mem_iff.mpr hn')

theorem names_map {l : List NodeId} (hl : l ⊆ (h.graph g).nodes) :
    (l.map node).map (Node.getName h') = l.map (Node.getName h) := by
  rw [map_map]
  exact map_congr_left fun n hn => hsame.name n (hl hn)

include hnames

theorem nodup_names : ((h'.graph g').nodes.map (Node.getName h')).Nodup := by
  rw [← (hsame.nodes.map _).nodup_iff, names_map hsame fun _ hn => hn]
  exact hnames

theorem node_inj {m : NodeId} (hm : m ∈ (h.graph g).nodes) (hn : n ∈ (h.graph g).nodes) (hmn : node m = node n) : m = n :=
  inj_on_of_nodup_map hnames hm hn (by rw [← hsame.name m hm, hmn, hsame.name n hn])

/-- Nodes of the second graph that have the names of nodes of the first are what these are mapped to. -/
theorem eq_map_of_names : ∀ {l l' : List NodeId}, l ⊆ (h.graph g).nodes → l' ⊆ (h'.graph g').nodes →
    l.map (Node.getName h) = l'.map (Node.getName h') → l' = l.map node
  | [], [], _, _, _ => rfl
  | n :: l, n' :: l', hl, hl', heq => by
    obtain ⟨hn, hl⟩ := cons_subset.mp hl
    obtain ⟨hn', hl'⟩ := cons_subset.mp hl'
    rw [map_cons, map_cons, List.cons.injEq] at heq
    have hhead : node n = n' := inj_on_of_nodup_map (nodup_names hsame hnames) (mem_node hsame hn) hn'
      ((hsame.name n hn).trans heq.1)
    rw [eq_map_of_names hl hl' heq.2, map_cons, hhead]

theorem count_map_node {l : List NodeId} (hl : l ⊆ (h.graph g).nodes) (hn : n ∈ (h.graph g).nodes) :
    (l.map node).count (node n) = l.count n := by
  rw [List.count, countP_map]
  refine countP_congr fun m hm => ?_
  simp only [comp_apply, beq_iff_eq]
  exact ⟨fun hmn => node_inj hsame hnames (hl hm) hn hmn, fun hmn => hmn ▸ rfl⟩

end

/-! ## Anchors and links -/

section
variable (hsame : SameGraph h g h' g' node anchor)
include hsame

theorem isNextIteration_node (hn : n ∈ (h.graph g).nodes) : Node.isNextIteration h' (node n) = Node.isNextIteration h n := by
  rw [Node.isNextIteration, Node.isNextIteration, hsame.type n hn]

/-- As many links come in. -/
theorem inLinks_node (hn : n ∈ (h.graph g).nodes) : h'.inLinks (node n) = h.inLinks n := by
  have hside : ∀ k, ((h'.anchorsOf (node n) k).map fun b => (h'.peers b).length).sum =
      ((h.anchorsOf n k).map fun b => (h.peers b).length).sum := by
    intro k
    rw [hsame.anchors n hn k, map_map]
    refine congrArg List.sum (map_congr_left fun b hb => ?_)
    simpa using (hsame.links n hn k b hb).length_eq
  simp only [inLinks, inAnchors, map_append, sum_append, hside]

theorem getOutEdgeSize_node (hn : n ∈ (h.graph g).nodes) : getOutEdgeSize h' (node n) = getOutEdgeSize h n := by
  have hdata : ((h'.node (node n)).outDataAnchors.map fun a => (h'.peers a).length).sum =
      ((h.node n).outDataAnchors.map fun a => (h.peers a).length).sum := by
    have hanchors : (h'.node (node n)).outDataAnchors = (h.node n).outDataAnchors.map anchor := hsame.anchors n hn .outData
    rw [hanchors, map_map]
    refine congrArg List.sum (map_congr_left fun a ha => ?_)
    simpa using (hsame.links n hn .outData a ha).length_eq
  have hcontrol : (h'.peers (h'.node (node n)).outControlAnchor).length = (h.peers (h.node n).outControlAnchor).length := by
    have hanchor : (h'.node (node n)).outControlAnchor = anchor (h.node n).outControlAnchor := by
      simpa [Heap.anchorsOf] using hsame.anchors n hn .outControl
    rw [hanchor]
    simpa using (hsame.links n hn .outControl _ (mem_singleton_self _)).length_eq
  unfold getOutEdgeSize
  rw [isNextIteration_node hsame hn, hdata, hcontrol]

end

/-- The peers of an anchor of the graph are anchors of the graph. -/
theorem owner_peer (hg : Sortable h g) (hn : n ∈ (h.graph g).nodes) (ha : a ∈ h.anchorsOf n k) (hb : b ∈ h.peers a) :
    h.owner b ∈ (h.graph g).nodes := by
  refine hg.closed.inside a ?_ b hb
  rwa [hg.sound.laid.owner n (hg.closed.made n hn) k a ha]

theorem targets_subset (hg : Sortable h g) (hn : n ∈ (h.graph g).nodes) : targets h n ⊆ (h.graph g).nodes := by
  intro v hv
  have hcount : 0 < (targets h n).count v := count_pos_iff.mpr hv
  rw [targets, count_outBlocks hg.sound.laid hg.directed (hg.closed.made n hn)] at hcount
  obtain ⟨a, b, hb, -, rfl, rfl, -⟩ := (linkCount_pos hg.sound (hg.closed.made n hn)).mp hcount
  exact hg.closed.inside a hn b hb

section
variable (hg : Sortable h g) (hg' : Sortable h' g') (hsame : SameGraph h g h' g' node anchor)
include hg hg' hsame

theorem kind_anchor (hn : n ∈ (h.graph g).nodes) (ha : a ∈ h.anchorsOf n k) :
    h'.kind (anchor a) = h.kind a ∧ h'.owner (anchor a) = node (h.owner a) := by
  have hmade := hg.closed.made n hn
  have hmade' := hg'.closed.made _ (mem_node hsame hn)
  have hmem : anchor a ∈ h'.anchorsOf (node n) k := hsame.anchors n hn k ▸ mem_map_of_mem ha
  rw [hg.sound.laid.kind n hmade k a ha, hg.sound.laid.owner n hmade k a ha, hg'.sound.laid.kind _ hmade' k _ hmem,
    hg'.sound.laid.owner _ hmade' k _ hmem]
  exact ⟨rfl, rfl⟩

theorem kind_peer (hn : n ∈ (h.graph g).nodes) (ha : a ∈ h.anchorsOf n k) (hb : b ∈ h.peers a) :
    h'.kind (anchor b) = h.kind b ∧ h'.owner (anchor b) = node (h.owner b) :=
  kind_anchor hg hg' hsame (owner_peer hg hn ha hb) (hg.sound.peersHeld a b hb).2

/-- The owners of the peers of a class are mapped. -/
theorem owners_perm (hn : n ∈ (h.graph g).nodes) (ha : a ∈ h.anchorsOf n k) (c : AnchorKind) :
    ((Anchor.getPeersOf h' (anchor a) c).map h'.owner).Perm (((Anchor.getPeersOf h a c).map h.owner).map node) := by
  have hfilter : (((h.peers a).map anchor).filter fun b => h'.kind b = c) = (Anchor.getPeersOf h a c).map anchor := by
    rw [filter_map, Anchor.getPeersOf]
    refine congrArg _ (filter_congr fun b hb => ?_)
    rw [comp_apply, (kind_peer hg hg' hsame hn ha hb).1]
  have hperm := ((hsame.links n hn k a ha).filter fun b => h'.kind b = c).map h'.owner
  rw [hfilter, map_map] at hperm
  rw [map_map]
  refine hperm.trans (List.Perm.of_eq (map_congr_left fun b hb => ?_))
  exact (kind_peer hg hg' hsame hn ha (mem_of_mem_filter hb)).2

/-- What a visit walks over is mapped. -/
theorem targets_perm (hn : n ∈ (h.graph g).nodes) : (targets h' (node n)).Perm ((targets h n).map node) := by
  have hcontrol : ((h'.peers (h'.node (node n)).outControlAnchor).map h'.owner).Perm
      (((h.peers (h.node n).outControlAnchor).map h.owner).map node) := by
    have hanchor : (h'.node (node n)).outControlAnchor = anchor (h.node n).outControlAnchor := by
      simpa [Heap.anchorsOf] using hsame.anchors n hn .outControl
    have hmem : (h.node n).outControlAnchor ∈ h.anchorsOf n .outControl := mem_singleton_self _
    have hperm := (hsame.links n hn .outControl _ hmem).map h'.owner
    rw [map_map] at hperm
    rw [hanchor, map_map]
    refine hperm.trans (List.Perm.of_eq (map_congr_left fun b hb => ?_))
    exact (kind_peer hg hg' hsame hn hmem hb).2
  have hblock : ∀ a ∈ (h.node n).outDataAnchors,
      (outDataBlocks h' (anchor a)).flatten.Perm ((outDataBlocks h a).flatten.map node) := by
    intro a ha
    have hdata := owners_perm hg hg' hsame hn (k := .outData) ha .inData
    have hctrl := owners_perm hg hg' hsame hn (k := .outData) ha .inControl
    simpa [outDataBlocks, OutDataAnchor.getPeerInDataAnchors, OutDataAnchor.getPeerInControlAnchors] using hdata.append hctrl
  have hanchors : (h'.node (node n)).outDataAnchors = (h.node n).outDataAnchors.map anchor := hsame.anchors n hn .outData
  unfold targets outBlocks
  rw [hanchors, flatten_append, flatten_append, map_append, flatten_singleton, flatten_singleton]
  refine List.Perm.append ?_ hcontrol
  clear hanchors
  revert hblock
  generalize (h.node n).outDataAnchors = l
  intro hblock
  induction l with
  | nil => exact .refl _
  | cons a l ih =>
    have hrest := ih fun b hb => hblock b (mem_cons_of_mem a hb)
    simpa using (hblock a mem_cons_self).append hrest

theorem loopLinks_node (hn : n ∈ (h.graph g).nodes) (hb : b ∈ (h.node n).inDataAnchors) :
    loopLinks h' (anchor b) = loopLinks h b := by
  have hb' : b ∈ h.anchorsOf n .inData := hb
  have hkind := kind_anchor hg hg' hsame hn hb'
  unfold loopLinks
  rw [(hsame.links n hn .inData b hb).countP_eq, countP_map]
  refine countP_congr fun a ha => ?_
  have hpeer := kind_peer hg hg' hsame hn hb' ha
  have hloop := isNextIteration_node hsame (owner_peer hg hn hb' ha)
  simp only [comp_apply, isLoopLink, hkind.1, hpeer.1, hpeer.2, hloop]

/-- Where loop links come first a node waits for as many links. -/
theorem waits_node (hn : n ∈ (h.graph g).nodes) (hfirst : LoopsFirst h n) (hfirst' : LoopsFirst h' (node n)) :
    waits h' (node n) = waits h n := by
  have hkind : ∀ b ∈ (h.node n).inDataAnchors, h.kind b = .inData := hg.sound.laid.kind n (hg.closed.made n hn) .inData
  have hkind' : ∀ b ∈ (h'.node (node n)).inDataAnchors, h'.kind b = .inData :=
    hg'.sound.laid.kind _ (hg'.closed.made _ (mem_node hsame hn)) .inData
  have hanchors : (h'.node (node n)).inDataAnchors = (h.node n).inDataAnchors.map anchor := hsame.anchors n hn .inData
  have hloops : ((h'.node (node n)).inDataAnchors.map (loopLinks h')).sum =
      ((h.node n).inDataAnchors.map (loopLinks h)).sum := by
    rw [hanchors, map_map]
    exact congrArg List.sum (map_congr_left fun b hb => loopLinks_node hg hg' hsame hn hb)
  have hle := firstLoops_le hkind
  have hge := le_firstLoops hkind hfirst
  have hle' := firstLoops_le hkind'
  have hge' := le_firstLoops hkind' hfirst'
  have hadd := getInEdgeSize_add (h := h) n
  have hadd' := getInEdgeSize_add (h := h') (node n)
  have hlinks := inLinks_node hsame hn
  unfold waits
  congr 1
  omega

end

end

end SameGraphs

end Metadef
