import Metadef.Lemmas.ClonedLinks
import Metadef.Theorems.LinkSymmetry

/-!
# Clones of graphs

`CloneGraph` clones a graph under a suffix. It skips constants without weights, does not make links from data outputs to control
inputs anew, and looks the outputs of the graph up under their old names.
-/

namespace Metadef

open List

open GraphUtils

/-- A graph has the nodes of another under their names with a suffix, the same edges between them and the same outputs. -/
structure Heap.GraphCloned (namePrefix : String) (h t : Heap) (g new : GraphId) : Prop where
  nodes : List.Forall₂ (fun n n' => Node.getName t n' = Node.getName h n ++ namePrefix ∧ (h.desc n).SameMembers (t.desc n'))
    (h.graph g).nodes (t.graph new).nodes
  edges : (t.structureOf new).edges = (h.structureOf g).edges.map (EdgeName.renamed namePrefix)
  outputs : (t.structureOf new).outputs = (h.structureOf g).outputs.map fun e => (e.1 ++ namePrefix, e.2)

/-- A graph is cloned, and the clones of its data nodes and net outputs are appended to the vectors. -/
def Heap.ClonesGraph (hasWeights : NodeId → Bool) (namePrefix : String) (inputNodes outputNodes : List NodeId) (h : Heap)
    (g : GraphId) :
    Prop :=
  ∃ new inputs outputs t, cloneGraph hasWeights (some g) namePrefix inputNodes outputNodes h = some
    (some (new, inputs, outputs), t) ∧
    h.GraphCloned namePrefix t g new ∧
    inputs = inputNodes ++ (t.graph new).nodes.filter (fun n => Node.getType t n = "Data") ∧
    outputs = outputNodes ++ (t.graph new).nodes.filter fun n => Node.getType t n = "NetOutput"

/-- A graph whose constants have weights, whose anchors its descriptors know, without links from data outputs to control inputs or
data links to inputs that are listed as linked before, and without outputs unless the suffix is empty. -/
structure Heap.Clonable (hasWeights : NodeId → Bool) (namePrefix : String) (h : Heap) (g : GraphId) : Prop where
  weights : ∀ n ∈ (h.graph g).nodes, Node.isConst h n = true → hasWeights n = true
  outputs : ∀ n ∈ (h.graph g).nodes, (h.node n).outDataAnchors.length ≤ (h.desc n).getOutputsSize
  inputs : ∀ e ∈ h.linkPairs (h.graph g).nodes, h.kind e.2 = .inData →
    (h.anchor e.2).idx < (h.desc (h.owner e.2)).getAllInputsSize
  noDataControl : ∀ e ∈ h.linkPairs (h.graph g).nodes, h.isDataControl e = false
  first : (h.linkPairs (h.graph g).nodes).Pairwise fun e e' => h.kind e'.1 = .outData → e'.2 ≠ e.2
  listed : namePrefix = "" ∨ (h.graph g).outputNodesInfo = []

namespace GraphClonesAux

open Cmd StructureAux OnnxGraphsAux ClonedNodesAux ClonedLinksAux LinkListsAux

variable {hasWeights : NodeId → Bool} {namePrefix : String} {h t u v w : Heap} {g new : GraphId} {n n' : NodeId}
  {nodes inputNodes outputNodes : List NodeId} {nodeMap : OrderedMap String NodeId} {clones : Clones}

/-! ## The outputs -/

/-- The outputs of the clone have the names of outputs of the graph. -/
theorem cloneOutNodesInfo_map (hd : h.NodesCloned namePrefix t new nodes nodeMap) (hs : t.SameButPeers w)
    (hname : ∀ e ∈ (w.graph g).outputNodesInfo, Node.getName w e.1 = Node.getName h e.1) :
    (cloneOutNodesInfo w g nodeMap).map (fun e => (Node.getName w e.1, e.2)) =
      ((w.graph g).outputNodesInfo.filter fun e => (nodeMap.find (Node.getName h e.1)).isSome).map
        fun e => (Node.getName h e.1, e.2) := by
  rw [cloneOutNodesInfo, map_filterMap, ← filterMap_eq_map, filterMap_filter]
  refine filterMap_congr fun e he => ?_
  rw [hname e he]
  cases hf : nodeMap.find (Node.getName h e.1) with
  | none => simp
  | some n' =>
    obtain ⟨p, hp, hs', rfl⟩ := hd.known _ _ hf
    have hc := (forall₂_iff_zip.mp hd.cloned).2 hp
    have hnode : Node.getName w p.2 = Node.getName t p.2 := getName_congr (by rw [Heap.desc, hs.op, hs.node, Heap.desc])
    simp [hnode, hc.name, hs']

/-- The outputs of the clone are those of the graph renamed when there are none or the suffix is empty. -/
theorem outputs_iff (hc : h.AllCloned namePrefix t nodes new nodeMap) (hs : t.SameButPeers w)
    (houts : ∀ e ∈ (w.graph g).outputNodesInfo, e.1 ∈ nodes) :
    (cloneOutNodesInfo w g nodeMap).map (fun e => (Node.getName w e.1, e.2)) =
      (w.graph g).outputNodesInfo.map (fun e => (Node.getName h e.1 ++ namePrefix, e.2)) ↔
    namePrefix = "" ∨ (w.graph g).outputNodesInfo = [] := by
  rw [cloneOutNodesInfo_map hc.cloned hs fun e he => getName_of_linking hc hs (houts e he)]
  constructor
  · intro heq
    have hlen := congrArg List.length heq
    rw [length_map, length_map] at hlen
    rw [filter_eq_self.mpr (length_filter_eq_length_iff.mp hlen)] at heq
    cases hl : (w.graph g).outputNodesInfo with
    | nil => exact .inr rfl
    | cons e l =>
      left
      rw [hl, map_cons, map_cons, List.cons.injEq, Prod.mk.injEq] at heq
      have hname : Node.getName h e.1 ++ "" = Node.getName h e.1 ++ namePrefix := by rw [String.append_empty]; exact heq.1.1
      exact (String.append_right_inj _).mp hname.symm
  · rintro (rfl | hnil)
    · rw [filter_eq_self.mpr fun e he => ?_]
      · simp only [String.append_empty]
      · have hfind := (clone_spec hc (houts e he)).1
        rw [String.append_empty] at hfind
        rw [hfind]
        rfl
    · rw [hnil]
      rfl

/-! ## The clone -/

/-- The heap with the new graph. -/
def start (h : Heap) (g : GraphId) : Heap :=
  { h with graphCount := h.graphCount + 1 }.setGraph h.graphCount { name := (h.graph g).name }

/-- Two heaps agree on what a graph is made of. -/
theorem start_graph (hg : g < h.graphCount) : (start h g).graph g = h.graph g := by
  rw [start, Heap.setGraph_graph, if_neg (Nat.ne_of_lt hg)]

variable (hs : h.Sound) (hd : h.Directed) (hg : h.GraphMade g) (hc : h.ClosedGraph g)
  (hnames : ((h.graph g).nodes.map (Node.getName h)).Nodup)
  (hctrl : ∀ n ∈ (h.graph g).nodes, (h.anchor (h.node n).inControlAnchor).idx = -1)
  (hcopy : ∀ n ∈ (h.graph g).nodes, ∃ copy ∈ copyDesc (h.desc n), (h.desc n).SameMembers copy)

variable (namePrefix) in
include hs in
theorem nodesCloned_start : (start h g).NodesCloned namePrefix (start h g) h.graphCount [] [] where
  grown := Grown.refl _ _
  sound := hs.of_anchors rfl rfl rfl rfl
  peers := rfl
  listed := rfl
  cloned := by simp [start]
  fresh := by simp [start]
  nodup := by simp [start]
  found := by simp
  known := by simp [OrderedMap.find]

variable (hasWeights namePrefix inputNodes outputNodes) in
include hs hg hnames hcopy in
/-- The loop over the nodes clones those that are no constants without weights, when their outputs fit. -/
theorem cloneNodes_start : ∃ r v, cloneNodes hasWeights namePrefix h.graphCount (h.graph g).nodes { inputNodes, outputNodes }
      (start h g) = some (r, v) ∧
    (r.isSome ↔ ∀ n ∈ (h.graph g).nodes, (h.node n).outDataAnchors.length ≤ (h.desc n).getOutputsSize) ∧
    ∀ clones ∈ r, (start h g).NodesCloned namePrefix v h.graphCount ((h.graph g).nodes.filter (h.isCloned hasWeights))
      clones.allNewNodes ∧ VectorsFilled inputNodes outputNodes h.graphCount v clones := by
  have hv : VectorsFilled inputNodes outputNodes h.graphCount (start h g) { inputNodes, outputNodes } := by
    constructor <;> simp [start]
  have hmade : ∀ n ∈ (h.graph g).nodes, n < (start h g).nodeCount ∧ ((start h g).node n).op < (start h g).opCount := hg.nodes
  have hnd : (([] ++ (h.graph g).nodes).map (Node.getName (start h g))).Nodup := hnames
  exact cloneNodes_spec (h := start h g) (h.graph g).nodes hmade hcopy (nodesCloned_start namePrefix hs) hv hnd

/-- Making links anew changes peers only. -/
theorem keeps_relinkGraphEdgesUnder (t : Heap) (nodeMap : OrderedMap String NodeId) (n : NodeId) :
    Keeps t.SameButPeers (relinkGraphEdgesUnder namePrefix nodeMap n) := by
  have hpeer : ∀ outAnchor peer, Keeps t.SameButPeers (relinkPeerUnder namePrefix nodeMap outAnchor peer) := by
    intro outAnchor peer s ok s' hs hr
    rw [relinkPeerUnder, get_bind_apply] at hr
    cases hf : nodeMap.find (Node.getName s (s.owner peer) ++ namePrefix) with
    | none =>
      obtain ⟨-, rfl⟩ : false = ok ∧ s = s' := by simpa [hf] using hr
      exact hs
    | some n' =>
      simp only [hf] at hr
      rcases CallAux.addEdge_cases hr with ⟨-, rfl⟩ | ⟨-, a, b, -, -, -, -, -, rfl⟩
      · exact hs
      · exact SameButPeers.trans hs (SameButPeers.linked s a b)
  intro s ok s' hs hr
  rw [relinkGraphEdgesUnder, get_bind_apply] at hr
  cases hf : nodeMap.find (Node.getName s n ++ namePrefix) with
  | none =>
    obtain ⟨-, rfl⟩ : false = ok ∧ s = s' := by simpa [hf] using hr
    exact hs
  | some n' =>
    simp only [hf] at hr
    refine Keeps.bind (Keeps.eachOk fun a _ => Keeps.eachOk fun b _ => hpeer _ _) (fun ok => ?_) s ok s' hs hr
    exact Keeps.ite (fun _ => Keeps.pure false) fun _ => Keeps.eachOk fun b _ => hpeer _ _

/-- A node that was not cloned is not found. -/
theorem relinkGraphEdges_skipped {l : List NodeId} (hd : h.NodesCloned namePrefix t new nodes nodeMap)
    (hmade : ∀ n ∈ l, n < h.nodeCount ∧ (h.node n).op < h.opCount) (hn : n ∈ l)
      (hnot : Node.getName h n ∉ nodes.map (Node.getName h)) :
    Cmd.eachOk (relinkGraphEdgesUnder namePrefix nodeMap) l t ≠ some (true, u) := by
  obtain ⟨before, after, rfl⟩ := append_of_mem hn
  intro hr
  rw [eachOk_append] at hr
  obtain ⟨ok, s, hbefore, hr⟩ := bind_eq_some.mp hr
  have hs : t.SameButPeers s :=
    Keeps.eachOk (fun m _ => keeps_relinkGraphEdgesUnder t nodeMap m) t ok s (SameButPeers.refl t) hbefore
  cases ok with
  | false => simp at hr
  | true =>
    have hr : Cmd.eachOk (relinkGraphEdgesUnder namePrefix nodeMap) (n :: after) s = some (true, u) := hr
    have hname : Node.getName s n = Node.getName h n := by
      obtain ⟨hlt, hop⟩ := hmade n hn
      refine getName_congr ?_
      rw [Heap.desc, hs.op, hs.node]
      exact Grown.desc hd.grown hlt hop
    have hfind : nodeMap.find (Node.getName h n ++ namePrefix) = none := by
      refine Option.eq_none_iff_forall_ne_some.mpr fun m hm => hnot ?_
      obtain ⟨e, he, hes, -⟩ := hd.known _ m hm
      exact append_inj hes ▸ mem_map_of_mem (of_mem_zip he).1
    have hround : relinkGraphEdgesUnder namePrefix nodeMap n s = some (false, s) := by
      rw [relinkGraphEdgesUnder, get_bind_apply, hname, hfind]
      rfl
    rw [Cmd.eachOk, bind_of_eq hround] at hr
    simp at hr

/-- The clone with its outputs. -/
def finished (w : Heap) (g new : GraphId) (nodeMap : OrderedMap String NodeId) : Heap :=
  w.setGraph new { w.graph new with outputNodesInfo := cloneOutNodesInfo w g nodeMap }

/-- What the loop over the nodes leaves when all of them are cloned. -/
structure Prepared (namePrefix : String) (inputNodes outputNodes : List NodeId) (h v : Heap) (g : GraphId) (clones : Clones) :
    Prop where
  cloned : (start h g).AllCloned namePrefix v (h.graph g).nodes h.graphCount clones.allNewNodes
  vectors : VectorsFilled inputNodes outputNodes h.graphCount v clones

variable (hasWeights namePrefix inputNodes outputNodes) in
include hs hd hg hc hnames hctrl hcopy in
/-- When all nodes can be cloned, the clone is there once the links are made anew. -/
theorem cloneGraph_of (hweights : ∀ n ∈ (h.graph g).nodes, Node.isConst h n = true → hasWeights n = true)
    (houts : ∀ n ∈ (h.graph g).nodes, (h.node n).outDataAnchors.length ≤ (h.desc n).getOutputsSize) :
    ∃ clones v, Prepared namePrefix inputNodes outputNodes h v g clones ∧ ∀ r t,
      cloneGraph hasWeights (some g) namePrefix inputNodes outputNodes h = some (some r, t) ↔
        ∃ w, Cmd.eachOk (relinkGraphEdgesUnder namePrefix clones.allNewNodes) (h.graph g).nodes v = some (true, w) ∧
          r = (h.graphCount, clones.inputNodes, clones.outputNodes) ∧ t = finished w g h.graphCount clones.allNewNodes := by
  obtain ⟨r, v, hrun, hsome, hspec⟩ := cloneNodes_start hasWeights namePrefix inputNodes outputNodes hs hg hnames hcopy
  obtain ⟨clones, rfl⟩ := Option.isSome_iff_exists.mp (hsome.mpr houts)
  obtain ⟨hcloned, hvectors⟩ := hspec clones rfl
  have hall : (h.graph g).nodes.filter (h.isCloned hasWeights) = (h.graph g).nodes :=
    filter_eq_self.mpr fun n hn => by simpa [Heap.isCloned, imp_iff_not_or] using hweights n hn
  rw [hall] at hcloned
  refine ⟨clones, v, ⟨⟨(nodesCloned_start namePrefix hs).sound, hd, hg.nodes, hc.inside, hnames, hctrl, hcloned,
    houts⟩, hvectors⟩, fun r t => ?_⟩
  rw [cloneGraph, get_bind_apply, bind_of_eq
    (show ModelSerializeImp.makeGraph (h.graph g).name h = some (h.graphCount, start h g) from rfl),
    bind_of_eq hrun]
  constructor
  · intro hr
    obtain ⟨ok, w, hw, hr⟩ := bind_eq_some.mp hr
    cases ok with
    | false => simp at hr
    | true =>
      have hr : some (some (h.graphCount, clones.inputNodes, clones.outputNodes), finished w g h.graphCount clones.allNewNodes) =
        some (some r, t) := hr
      obtain ⟨hres, hheap⟩ := of_return hr
      exact ⟨w, hw, (Option.some.inj hres).symm, hheap.symm⟩
  · rintro ⟨w, hw, rfl, rfl⟩
    show (Cmd.eachOk _ _ >>= _) v = _
    rw [bind_of_eq hw]
    rfl

include hs hg hnames hcopy in
/-- A run that gives a clone cloned all nodes. -/
theorem cloneGraph_clones {inputs outputs : List NodeId}
    (hr : cloneGraph hasWeights (some g) namePrefix inputNodes outputNodes h = some (some (new, inputs, outputs), t)) :
    (∀ n ∈ (h.graph g).nodes, Node.isConst h n = true → hasWeights n = true) ∧
      ∀ n ∈ (h.graph g).nodes, (h.node n).outDataAnchors.length ≤ (h.desc n).getOutputsSize := by
  obtain ⟨r, v, hrun, hsome, hspec⟩ := cloneNodes_start hasWeights namePrefix inputNodes outputNodes hs hg hnames hcopy
  rw [cloneGraph, get_bind_apply, bind_of_eq
    (show ModelSerializeImp.makeGraph (h.graph g).name h = some (h.graphCount, start h g) from rfl),
    bind_of_eq hrun] at hr
  cases r with
  | none => simp at hr
  | some clones =>
    obtain ⟨hcloned, -⟩ := hspec clones rfl
    refine ⟨fun n hn hconst => ?_, hsome.mp rfl⟩
    by_contra hnot
    obtain ⟨ok, w, hrelink, hr⟩ := bind_eq_some.mp hr
    cases ok with
    | false => simp at hr
    | true =>
      refine relinkGraphEdges_skipped hcloned hg.nodes hn (fun hmem => ?_) hrelink
      obtain ⟨m, hm, hname⟩ := List.mem_map.mp hmem
      obtain ⟨hm, hkept⟩ := mem_filter.mp hm
      obtain rfl := inj_on_of_nodup_map hnames hm hn hname
      have hskipped : (start h g).isCloned hasWeights m = false := by
        rw [Heap.isCloned, show Node.isConst (start h g) m = true from hconst, Bool.eq_false_iff.mpr hnot]
        rfl
      rw [show h.isCloned hasWeights m = false from hskipped] at hkept
      cases hkept

/-! ## What the clone is made of -/

section Finished

variable (hp : Prepared namePrefix inputNodes outputNodes h v g clones) (hw : v.SameButPeers w)

theorem finished_desc (hw : v.SameButPeers w) : (finished w g new nodeMap).desc = v.desc := by
  funext n
  show w.op (w.node n).op = _
  rw [hw.op, hw.node, Heap.desc]

theorem finished_nodes (hw : v.SameButPeers w) : ((finished w g new nodeMap).graph new).nodes = (v.graph new).nodes := by
  rw [finished, Heap.setGraph_graph, if_pos rfl, hw.graph]

include hp hw in
/-- The clone has the nodes of the graph. -/
theorem finished_cloned : List.Forall₂ (fun n n' =>
    Node.getName (finished w g h.graphCount clones.allNewNodes) n' = Node.getName h n ++ namePrefix ∧
      (h.desc n).SameMembers ((finished w g h.graphCount clones.allNewNodes).desc n'))
    (h.graph g).nodes ((finished w g h.graphCount clones.allNewNodes).graph h.graphCount).nodes := by
  rw [finished_nodes hw, finished_desc hw]
  exact hp.cloned.cloned.cloned.imp fun n n' hn => ⟨(getName_congr (congrFun (finished_desc hw) n')).trans hn.name, hn.desc⟩

include hp hw in
/-- The vectors end with the clones of the types they are for. -/
theorem finished_vectors : VectorsFilled inputNodes outputNodes h.graphCount
    (finished w g h.graphCount clones.allNewNodes) clones := by
  have htype : ∀ n, Node.getType (finished w g h.graphCount clones.allNewNodes) n = Node.getType v n := fun n =>
    getType_congr (congrFun (finished_desc hw) n)
  constructor <;> simp only [finished_nodes hw, htype]
  · exact hp.vectors.inputs
  · exact hp.vectors.outputs

include hp in
/-- The clone has the edges that were made anew. -/
theorem finished_edges (hall : ∀ e ∈ h.relinked (h.graph g).nodes, h.kind e.2 = .inData →
      (h.anchor e.2).idx < (h.desc (h.owner e.2)).getAllInputsSize)
    (hw : w = linkAll (((start h g).relinked (h.graph g).nodes).filterMap
      (cloneEnds namePrefix (start h g) v clones.allNewNodes)) v) :
    ((finished w g h.graphCount clones.allNewNodes).structureOf h.graphCount).edges =
      (((h.relinked (h.graph g).nodes).map fun e => (h.edgeName e.1 e.2).renamed namePrefix : List EdgeName) :
        Multiset EdgeName) := by
  have hsame : v.SameButPeers w := hw ▸ SameButPeers.linkAll _ v
  have hedges := edgesInto_clone hp.cloned hall
  rw [← hw] at hedges
  refine Eq.trans ?_ (Multiset.coe_eq_coe.mpr hedges)
  show (((finished w g h.graphCount clones.allNewNodes).edgesInto
    ((finished w g h.graphCount clones.allNewNodes).graph h.graphCount).nodes : List EdgeName) : Multiset EdgeName) = _
  rw [finished_nodes hsame]
  rfl

include hp hw in
/-- The clone has the outputs renamed when there are none or the suffix is empty. -/
theorem finished_outputs (hg : h.GraphMade g) : ((finished w g h.graphCount clones.allNewNodes).structureOf h.graphCount).outputs =
    ((h.structureOf g).outputs.map fun e => (e.1 ++ namePrefix, e.2)) ↔ namePrefix = "" ∨ (h.graph g).outputNodesInfo = [] := by
  have hne : g ≠ h.graphCount := Nat.ne_of_lt hg.made
  have hgraph : w.graph g = h.graph g := by
    have hlt : g < (start h g).graphCount := Nat.lt_succ_of_lt hg.made
    rw [hw.graph, hp.cloned.cloned.grown.graph g hlt hne, start_graph hg.made]
  have hiff := outputs_iff (g := g) hp.cloned hw (by rw [hgraph]; exact hg.outputs)
  rw [hgraph] at hiff
  refine Iff.trans (Eq.congr ?_ ?_) hiff
  · show ((finished w g h.graphCount clones.allNewNodes).graph h.graphCount).outputNodesInfo.map _ = _
    rw [finished, Heap.setGraph_graph, if_pos rfl]
    rfl
  · rw [Heap.structureOf, map_map]
    rfl

end Finished

/-- Without links from data outputs to control inputs all links are made anew. -/
theorem relinked_of_noDataControl (hp : Prepared namePrefix inputNodes outputNodes h v g clones)
    (hnone : ∀ e ∈ h.linkPairs (h.graph g).nodes, h.isDataControl e = false) :
    h.relinked (h.graph g).nodes = h.linkPairs (h.graph g).nodes := by
  refine (relinked_eq_filter hp.cloned).trans (filter_eq_self.mpr fun e he => ?_)
  rw [show (start h g).isDataControl e = false from hnone e he]
  rfl

include hs hd hc in
/-- The edges made anew are all edges of the graph when none is from a data output to a control input. -/
theorem edges_iff (hp : Prepared namePrefix inputNodes outputNodes h v g clones) :
    (((h.relinked (h.graph g).nodes).map fun e => (h.edgeName e.1 e.2).renamed namePrefix : List EdgeName) : Multiset EdgeName) =
      (h.structureOf g).edges.map (EdgeName.renamed namePrefix) ↔
    ∀ e ∈ h.linkPairs (h.graph g).nodes, h.isDataControl e = false := by
  have hnd : (h.graph g).nodes.Nodup := List.Nodup.of_map _ hp.cloned.names
  have hperm := edgesInto_perm hs hd hc.made hc.inside hnd
  have hall : (h.structureOf g).edges.map (EdgeName.renamed namePrefix) =
      (((h.linkPairs (h.graph g).nodes).map fun e => (h.edgeName e.1 e.2).renamed namePrefix : List EdgeName) :
        Multiset EdgeName) := by
    refine (congrArg (Multiset.map (EdgeName.renamed namePrefix)) (Multiset.coe_eq_coe.mpr hperm)).trans ?_
    rw [Multiset.map_coe, map_map]
    rfl
  rw [hall, show h.relinked (h.graph g).nodes = (h.linkPairs (h.graph g).nodes).filter fun e => !h.isDataControl e from
    relinked_eq_filter (h := start h g) hp.cloned]
  constructor
  · intro heq e he
    have hlen := (Multiset.coe_eq_coe.mp heq).length_eq
    rw [length_map, length_map] at hlen
    simpa using length_filter_eq_length_iff.mp hlen e he
  · intro hnone
    rw [filter_eq_self.mpr fun e he => ?_]
    rw [hnone e he, Bool.not_false]

include hs hd hg hc hnames hctrl hcopy in
/-- A graph that is cloned meets the condition. -/
theorem clonable_of_clonesGraph (hclones : h.ClonesGraph hasWeights namePrefix inputNodes outputNodes g) :
    h.Clonable hasWeights namePrefix g := by
  obtain ⟨new, inputs, outputs, t, hr, hgraph, -, -⟩ := hclones
  obtain ⟨hweights, houts⟩ := cloneGraph_clones hs hg hnames hcopy hr
  obtain ⟨clones, v, hp, hrun⟩ := cloneGraph_of hasWeights namePrefix inputNodes outputNodes hs hd hg hc hnames hctrl hcopy hweights houts
  obtain ⟨w, hrelink, hres, rfl⟩ := (hrun _ _).mp hr
  obtain rfl : new = h.graphCount := (Prod.mk.inj hres).1
  obtain ⟨hinputs, hfirst, hw⟩ := (relinkGraphEdges_iff hp.cloned).mp hrelink
  have hsame : v.SameButPeers w := hw ▸ SameButPeers.linkAll _ v
  have hnone := (edges_iff hs hd hc hp).mp ((finished_edges hp hinputs hw).symm.trans hgraph.edges)
  have hlinks := relinked_of_noDataControl hp hnone
  exact ⟨hweights, houts, hlinks ▸ hinputs, hnone, hlinks ▸ hfirst, (finished_outputs hp hsame hg).mp hgraph.outputs⟩

end GraphClonesAux

open GraphClonesAux ClonedLinksAux LinkListsAux in
/-- A graph is cloned under a suffix just when its constants have weights, the inputs and outputs of its nodes are those of their
descriptors, no data output is linked to a control input, no data link is listed after another link to its input, and the suffix is
empty if the graph has outputs. -/
theorem clonesGraph_iff (hasWeights : NodeId → Bool) (namePrefix : String) (inputNodes outputNodes : List NodeId) (h : Heap)
    (g : GraphId) (hs : h.Sound) (hd : h.Directed) (hg : h.GraphMade g) (hc : h.ClosedGraph g)
    (hnames : ((h.graph g).nodes.map (Node.getName h)).Nodup)
    (hctrl : ∀ n ∈ (h.graph g).nodes, (h.anchor (h.node n).inControlAnchor).idx = -1)
    (hcopy : ∀ n ∈ (h.graph g).nodes, ∃ copy ∈ copyDesc (h.desc n), (h.desc n).SameMembers copy) :
    h.ClonesGraph hasWeights namePrefix inputNodes outputNodes g ↔ h.Clonable hasWeights namePrefix g := by
  refine ⟨clonable_of_clonesGraph hs hd hg hc hnames hctrl hcopy, fun hcond => ?_⟩
  obtain ⟨clones, v, hp, hrun⟩ := cloneGraph_of hasWeights namePrefix inputNodes outputNodes hs hd hg hc hnames hctrl hcopy hcond.weights hcond.outputs
  have hlinks := relinked_of_noDataControl hp hcond.noDataControl
  have hinputs : ∀ e ∈ h.relinked (h.graph g).nodes, h.kind e.2 = .inData →
      (h.anchor e.2).idx < (h.desc (h.owner e.2)).getAllInputsSize := by
    rw [hlinks]
    exact hcond.inputs
  have hrelink := (relinkGraphEdges_iff hp.cloned).mpr ⟨hinputs, hlinks ▸ hcond.first, rfl⟩
  have hsame := SameButPeers.linkAll (((start h g).relinked (h.graph g).nodes).filterMap
    (cloneEnds namePrefix (start h g) v clones.allNewNodes)) v
  have hvectors := finished_vectors hp hsame
  exact ⟨_, _, _, _, (hrun _ _).mpr ⟨_, hrelink, rfl, rfl⟩, ⟨finished_cloned hp hsame,
    (finished_edges hp hinputs rfl).trans ((edges_iff hs hd hc hp).mpr hcond.noDataControl),
      (finished_outputs hp hsame hg).mpr hcond.listed⟩,
    hvectors.inputs, hvectors.outputs⟩

namespace GraphClonesWitness

/-- The calls that make a node of a type with an output, and one with an input, and link them. -/
def linking (type : String) (link : LinkCall) : List LinkCall :=
  [.newOp { opDef := { name := "x", type }, outputsDesc := [{}] }, .newNode 0,
    .newOp { opDef := { name := "y", type := "Relu" }, inputsDesc := [{}] }, .newNode 1, link]

/-- The nodes in a graph with outputs. -/
def pair (type : String) (link : LinkCall) (outputNodesInfo : List (NodeId × Int)) : Heap :=
  let h := GraphSteps.addAll 0 { (LinkCall.runAll (linking type link)).getD .empty with graphCount := 1 } [0, 1]
  h.setGraph 0 { h.graph 0 with outputNodesInfo }

/-- What a graph that is cloned is assumed to be. -/
structure Domain (h : Heap) (g : GraphId) : Prop where
  sound : h.Sound
  directed : h.Directed
  made : h.GraphMade g
  closed : h.ClosedGraph g
  names : ((h.graph g).nodes.map (Node.getName h)).Nodup
  controls : ∀ n ∈ (h.graph g).nodes, (h.anchor (h.node n).inControlAnchor).idx = -1
  copies : ∀ n ∈ (h.graph g).nodes, ∃ copy ∈ copyDesc (h.desc n), (h.desc n).SameMembers copy

theorem sound_pair {type : String} {link : LinkCall} {outputNodesInfo : List (NodeId × Int)}
    (hc : Run.Each LinkCall.step LinkCall.Careful (linking type link) Heap.empty)
      (hr : (LinkCall.runAll (linking type link)).isSome) :
    (pair type link outputNodesInfo).Sound := by
  obtain ⟨h, hh⟩ := Option.isSome_iff_exists.mp hr
  refine GraphSteps.sound_setGraph (GraphSteps.sound_addAll 0 _ ?_) 0 _
  rw [hh]
  exact (sound_runAll _ h hc hh).of_anchors rfl rfl rfl rfl

theorem domain_of_checks {h : Heap} (hs : h.Sound) (hgraph : 0 < h.graphCount)
    (hlinks : ∀ a < h.anchorCount, ∀ b ∈ h.peers a, (h.kind b).isIn = (!(h.kind a).isIn) ∧ h.owner b ∈ (h.graph 0).nodes)
    (hnodes : ∀ n ∈ (h.graph 0).nodes, n < h.nodeCount ∧ (h.node n).op < h.opCount)
    (hends : (∀ n ∈ (h.graph 0).inputNodes, n ∈ (h.graph 0).nodes) ∧ ∀ e ∈ (h.graph 0).outputNodesInfo, e.1 ∈ (h.graph 0).nodes)
    (hnames : ((h.graph 0).nodes.map (Node.getName h)).Nodup)
    (hcontrols : ∀ n ∈ (h.graph 0).nodes, (h.anchor (h.node n).inControlAnchor).idx = -1)
    (hcopies : ∀ n ∈ (h.graph 0).nodes, ∃ copy ∈ copyDesc (h.desc n), (h.desc n).SameMembers copy) : Domain h 0 := by
  have hall := hs.forall_peers hlinks
  refine ⟨hs, fun a b hb => (hall a b hb).1, ⟨hgraph, hnodes, hends.1, hends.2, fun n hn b _ a ha => ?_⟩,
    ⟨fun n hn => (hnodes n hn).1, fun a _ b hb => (hall a b hb).2⟩, hnames, hcontrols, hcopies⟩
  exact (hall b a ha).2

theorem domain_data : Domain (pair "Data" (.addDataEdge (some 2) (some 5)) []) 0 :=
  domain_of_checks (sound_pair (by decide +kernel) (by decide +kernel)) (by decide +kernel) (by decide +kernel) (by decide +kernel)
    (by decide +kernel) (by decide +kernel) (by decide +kernel) (by decide +kernel)

theorem clonesGraph_data : (pair "Data" (.addDataEdge (some 2) (some 5)) []).ClonesGraph (fun _ => false) "_copy" [] [] 0 := by
  have hd := domain_data
  refine (clonesGraph_iff (fun _ => false) "_copy" []
    [] _ 0 hd.sound hd.directed hd.made hd.closed hd.names hd.controls hd.copies).mpr ?_
  exact ⟨by decide +kernel, by decide +kernel, by decide +kernel, by decide +kernel, by decide +kernel, .inr (by decide +kernel)⟩

/-- A graph is not cloned that has a constant without weights, an output under a suffix that is not empty, or a link from a data
output to a control input. -/
theorem clonesGraph_false :
    (Domain (pair "Const" (.addDataEdge (some 2) (some 5)) []) 0 ∧
      ¬(pair "Const" (.addDataEdge (some 2) (some 5)) []).ClonesGraph (fun _ => false) "_copy" [] [] 0) ∧
    (Domain (pair "Data" (.addDataEdge (some 2) (some 5)) [(1, 0)]) 0 ∧
      ¬(pair "Data" (.addDataEdge (some 2) (some 5)) [(1, 0)]).ClonesGraph (fun _ => false) "_copy" [] [] 0) ∧
    (Domain (pair "Data" (.addDataControlEdge (some 2) (some 3)) []) 0 ∧
      ¬(pair "Data" (.addDataControlEdge (some 2) (some 3)) []).ClonesGraph (fun _ => false) "_copy" [] [] 0) := by
  have hfalse : ∀ h, Domain h 0 → ¬ h.Clonable (fun _ => false) "_copy" 0 →
      Domain h 0 ∧ ¬ h.ClonesGraph (fun _ => false) "_copy" [] [] 0 := fun h hd hnot =>
    ⟨hd, fun hclones => hnot (GraphClonesAux.clonable_of_clonesGraph hd.sound hd.directed hd.made hd.closed hd.names hd.controls
      hd.copies hclones)⟩
  refine ⟨?_, ?_, ?_⟩
  · refine hfalse _ (domain_of_checks (sound_pair (by decide +kernel) (by decide +kernel)) (by decide +kernel) (by decide +kernel)
      (by decide +kernel) (by decide +kernel) (by decide +kernel) (by decide +kernel) (by decide +kernel)) fun hc => ?_
    exact absurd (hc.weights 0 (by decide +kernel) (by decide +kernel)) Bool.false_ne_true
  · refine hfalse _ (domain_of_checks (sound_pair (by decide +kernel) (by decide +kernel)) (by decide +kernel) (by decide +kernel)
      (by decide +kernel) (by decide +kernel) (by decide +kernel) (by decide +kernel) (by decide +kernel)) fun hc => ?_
    exact absurd hc.listed (by decide +kernel)
  · refine hfalse _ (domain_of_checks (sound_pair (by decide +kernel) (by decide +kernel)) (by decide +kernel) (by decide +kernel)
      (by decide +kernel) (by decide +kernel) (by decide +kernel) (by decide +kernel) (by decide +kernel)) fun hc => ?_
    exact absurd hc.noDataControl (by decide +kernel)

end GraphClonesWitness

end Metadef
