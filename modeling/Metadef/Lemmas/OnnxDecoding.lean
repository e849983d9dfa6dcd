import Metadef.Lemmas.OnnxLinks

/-!
# Finishing a graph read from a dump

Once the nodes of a graph are read its links, inputs and outputs are made, when the graph has the nodes they name. An output is entered
once, whatever its index was.
-/

namespace Metadef

open List Heap

/-- All that the message of a graph names is found among its nodes. -/
structure Heap.Decodable (attrs : NodeId → List (String × Int)) (h : Heap) (g : GraphId) : Prop where
  links : h.LinksFound attrs (h.graph g).nodes
  inputs : ∀ n ∈ (h.graph g).inputNodes, ∃ m ∈ (h.graph g).nodes, Node.getName h m = Node.getName h n
  outputs : ∀ e ∈ (h.graph g).outputNodesInfo, ∃ m ∈ (h.graph g).nodes, Node.getName h m = Node.getName h e.1

/-- Only the links of the nodes of a graph, and its inputs and outputs, differ. -/
structure Heap.Finished (g : GraphId) (t w : Heap) : Prop extends t.SameLayout w where
  opCount : w.opCount = t.opCount
  graphCount : w.graphCount = t.graphCount
  op : w.op = t.op
  graph : ∀ x, x ≠ g → w.graph x = t.graph x
  nodes : (w.graph g).nodes = (t.graph g).nodes
  subGraph : (w.graph g).subGraph = (t.graph g).subGraph
  peers : ∀ b, (∀ n ∈ (t.graph g).nodes, ∀ k, b ∉ t.anchorsOf n k) → w.peers b = t.peers b

namespace OnnxUtils

/-- Enters a name unless it is there. -/
def enterName (l : List String) (s : String) : List String := if s ∈ l then l else l ++ [s]

/-- What a graph is read back as: the links its nodes are written with, and its outputs by name only. -/
def readStructure (h : Heap) (g : GraphId) : GraphStructure :=
  { nodes := (h.graph g).nodes.map fun n => (Node.getName h n, Node.getType h n)
    edges := ((h.graph g).nodes.flatMap h.writtenLinks).map fun e => h.edgeName e.1 e.2
    inputs := (h.graph g).inputNodes.map (Node.getName h)
    outputs := (((h.graph g).outputNodesInfo.map fun e => Node.getName h e.1).foldl enterName []).map fun s => (s, 0) }

/-- The end of `DecodeGraph`, behind the nodes. -/
def finish (graph : GraphId) (nodeMap : OrderedMap String NodeId) (protos : List (NodeProto GraphProto))
    (input output : List String) : Cmd Heap (Option GraphId) := do
  if !(← decodeNodeLink nodeMap protos) then return none
  if !(← Cmd.eachOk (decodeInput graph nodeMap) input) then return none
  if !(← Cmd.eachOk (decodeOutput graph nodeMap) output) then return none
  return some graph

end OnnxUtils

namespace OnnxDecodingAux

open Cmd OnnxUtils OnnxGraphsAux OnnxLinksAux StructureAux

variable {attrs : NodeId → List (String × Int)} {level : DumpLevel} {h t u w : Heap} {g x : GraphId} {n : NodeId}
  {nodeMap : OrderedMap String NodeId} {s : String} {l : List NodeId}

/-! ## Inputs -/

theorem decodeInput_eq (hmem : ∀ s n, nodeMap.find s = some n → n ∈ (t.graph g).nodes) (s : String) :
    decodeInput g nodeMap s t = some (match nodeMap.find s with
      | none => (false, t)
      | some n => (true, t.setGraph g { t.graph g with inputNodes := (t.graph g).inputNodes ++ [n] })) := by
  unfold decodeInput
  cases hs : nodeMap.find s with
  | none => rfl
  | some n =>
    simp only [ComputeGraph.addInputNode, ComputeGraph.edit, bind_assoc, modify_bind_apply, get_bind_apply]
    rw [setGraph_graph, if_pos rfl, if_pos (hmem s n hs)]
    rfl

/-- The inputs that are found are entered in order. -/
theorem eachOk_decodeInput (names : List String) : ∀ {t : Heap}, (∀ s n, nodeMap.find s = some n → n ∈ (t.graph g).nodes) →
    (∀ s ∈ names, (nodeMap.find s).isSome) → Cmd.eachOk (decodeInput g nodeMap) names t =
      some (true, t.setGraph g { t.graph g with inputNodes := (t.graph g).inputNodes ++ names.filterMap nodeMap.find }) := by
  induction names with
  | nil =>
    intro t _ _
    simp [Cmd.eachOk, Heap.setGraph]
  | cons s names ih =>
    intro t hmem hfound
    obtain ⟨n, hn⟩ := Option.isSome_iff_exists.mp (hfound s mem_cons_self)
    have hfirst := decodeInput_eq hmem s
    rw [hn] at hfirst
    rw [Cmd.eachOk, bind_of_eq hfirst]
    show Cmd.eachOk _ _ _ = _
    rw [ih (fun s n hs => by simpa using hmem s n hs) fun x hx => hfound x (mem_cons_of_mem s hx), filterMap_cons_some hn]
    simp [Heap.setGraph]

/-! ## Outputs -/

/-- Enters an output by the name of its node. -/
def enterOutput (h : Heap) (l : List (NodeId × Int)) (n : NodeId) : List (NodeId × Int) :=
  if (l.find? fun item => Node.getName h item.1 = Node.getName h n && item.2 = 0).isNone then l ++ [(n, 0)] else l

theorem decodeOutput_eq (hmem : ∀ s n, nodeMap.find s = some n → n ∈ (t.graph g).nodes) (s : String) :
    decodeOutput g nodeMap s t = some (match nodeMap.find s with
      | none => (false, t)
      | some n => (true, t.setGraph g { t.graph g with outputNodesInfo := enterOutput t (t.graph g).outputNodesInfo n })) := by
  unfold decodeOutput enterOutput
  cases hs : nodeMap.find s with
  | none => rfl
  | some n =>
    simp only [ComputeGraph.addOutputNodeByIndex, ComputeGraph.edit, bind_assoc, get_bind_apply]
    cases hhad : (t.graph g).outputNodesInfo.find? fun item => Node.getName t item.1 = Node.getName t n && item.2 = 0 with
    | none => simp [hmem s n hs]
    | some e => simp [hmem s n hs, Heap.setGraph]

/-- The outputs that are found are entered in order. -/
theorem eachOk_decodeOutput (names : List String) : ∀ {t : Heap}, (∀ s n, nodeMap.find s = some n → n ∈ (t.graph g).nodes) →
    (∀ s ∈ names, (nodeMap.find s).isSome) → Cmd.eachOk (decodeOutput g nodeMap) names t =
      some (true, t.setGraph g { t.graph g with
        outputNodesInfo := (names.filterMap nodeMap.find).foldl (enterOutput t) (t.graph g).outputNodesInfo }) := by
  induction names with
  | nil =>
    intro t _ _
    simp [Cmd.eachOk, Heap.setGraph]
  | cons s names ih =>
    intro t hmem hfound
    obtain ⟨n, hn⟩ := Option.isSome_iff_exists.mp (hfound s mem_cons_self)
    have hfirst := decodeOutput_eq hmem s
    rw [hn] at hfirst
    rw [Cmd.eachOk, bind_of_eq hfirst]
    show Cmd.eachOk _ _ _ = _
    rw [ih (fun s n hs => by simpa using hmem s n hs) fun x hx => hfound x (mem_cons_of_mem s hx), filterMap_cons_some hn]
    have hsame : ∀ x, enterOutput (t.setGraph g x) = enterOutput t := fun _ => rfl
    rw [hsame]
    simp [Heap.setGraph]

/-- Outputs entered by name are those of the names entered. -/
theorem foldl_enterOutput (h : Heap) (l : List NodeId) : ∀ acc : List (NodeId × Int), (∀ e ∈ acc, e.2 = 0) →
    (l.foldl (enterOutput h) acc).map (fun e => (Node.getName h e.1, e.2)) =
      ((l.map (Node.getName h)).foldl enterName (acc.map fun e => Node.getName h e.1)).map (fun s => (s, (0 : Int))) ∧
    ∀ e ∈ l.foldl (enterOutput h) acc, e ∈ acc ∨ e.1 ∈ l := by
  induction l with
  | nil =>
    intro acc hacc
    refine ⟨?_, fun e he => .inl he⟩
    rw [foldl_nil, map_nil, foldl_nil, map_map]
    exact map_congr_left fun e he => by rw [hacc e he]; rfl
  | cons n l ih =>
    intro acc hacc
    have henter : (enterOutput h acc n).map (fun e => Node.getName h e.1) =
        enterName (acc.map fun e => Node.getName h e.1) (Node.getName h n) := by
      unfold enterOutput enterName
      by_cases hin : Node.getName h n ∈ acc.map fun e => Node.getName h e.1
      · obtain ⟨e, he, hname⟩ := List.mem_map.mp hin
        rw [if_pos hin, if_neg]
        rw [Option.isNone_iff_eq_none, find?_eq_none]
        exact fun hall => hall e he (by simp [hname, hacc e he])
      · rw [if_neg hin, if_pos]
        · simp
        · rw [Option.isNone_iff_eq_none, find?_eq_none]
          intro e he hboth
          exact hin (List.mem_map.mpr ⟨e, he, by simpa using (Bool.and_eq_true_iff.mp hboth).1⟩)
    have hmem : ∀ e ∈ enterOutput h acc n, e ∈ acc ∨ e = (n, 0) := by
      intro e he
      unfold enterOutput at he
      split at he
      · simpa using he
      · exact .inl he
    obtain ⟨hmap, hfrom⟩ := ih (enterOutput h acc n) fun e he => (hmem e he).elim (hacc e) fun h => by rw [h]
    refine ⟨by rw [foldl_cons, hmap, henter, map_cons, foldl_cons], fun e he => ?_⟩
    rcases hfrom e he with he | he
    · rcases hmem e he with he | rfl
      · exact .inl he
      · exact .inr mem_cons_self
    · exact .inr (mem_cons_of_mem n he)

/-! ## The end of a graph -/

/-- The name of a node of a graph that was written leads to its copy. -/
theorem find_of_named (hu : h.Unlinked attrs t g l nodeMap) (hs : ∃ m ∈ l, Node.getName h m = s) : (nodeMap.find s).isSome := by
  obtain ⟨m, hm, rfl⟩ := hs
  obtain ⟨i, hi, rfl⟩ := mem_iff_getElem.mp hm
  have hi' : i < (t.graph g).nodes.length := hu.copied.length_eq ▸ hi
  rw [hu.found (l[i], (t.graph g).nodes[i]) (mem_iff_getElem.mpr ⟨i, by simp [hi, hi'], getElem_zip⟩)]
  rfl

/-- What is known by name has the name and is a node of the graph. -/
theorem named_of_find (hu : h.Unlinked attrs t g l nodeMap) (hs : nodeMap.find s = some n) :
    n ∈ (t.graph g).nodes ∧ Node.getName t n = s ∧ ∃ m ∈ l, Node.getName h m = s := by
  obtain ⟨⟨m, m'⟩, hm, hname, rfl⟩ := hu.known s n hs
  exact ⟨(of_mem_zip hm).2, (copied_of_mem hu hm).name.trans hname, m, (of_mem_zip hm).1, hname⟩

/-- The nodes found by names have these names. -/
theorem map_getName_filterMap (hu : h.Unlinked attrs t g l nodeMap) {names : List String}
    (hfound : ∀ s ∈ names, (nodeMap.find s).isSome) : (names.filterMap nodeMap.find).map (Node.getName t) = names := by
  induction names with
  | nil => rfl
  | cons s names ih =>
    obtain ⟨n, hn⟩ := Option.isSome_iff_exists.mp (hfound s mem_cons_self)
    rw [filterMap_cons_some hn, map_cons, ih fun x hx => hfound x (mem_cons_of_mem s hx), (named_of_find hu hn).2.1]

/-- A graph whose message names nothing but its nodes is finished with the structure it is read back as. -/
theorem finish_spec (level : DumpLevel) (hs : h.Sound) (hidx : ∀ a < h.anchorCount, (h.anchor a).idx < 2 ^ 31)
    (hmade : ∀ n ∈ (h.graph x).nodes, n < h.nodeCount) (hu : h.Unlinked attrs t g (h.graph x).nodes nodeMap)
    (hd : h.Decodable attrs x) :
    ∃ w, finish g nodeMap ((h.graph x).nodes.map (encodeNode attrs level h)) ((h.graph x).inputNodes.map (Node.getName h))
        ((h.graph x).outputNodesInfo.map fun o => Node.getName h o.1) t = some (some g, w) ∧
      Heap.Finished g t w ∧ w.Sound ∧ w.GraphMade g ∧ w.structureOf g = readStructure h x := by
  obtain ⟨v, hlinks, hsame, hsound, hpeers, hsources, hedges⟩ := decodeNodeLink_spec level hs hidx hu hmade hd.links
  have hgraph : v.graph = t.graph := hsame.graph
  have hmem : ∀ s n, nodeMap.find s = some n → n ∈ (v.graph g).nodes := fun s n hn => by
    rw [hgraph]
    exact (named_of_find hu hn).1
  have hin : ∀ s ∈ (h.graph x).inputNodes.map (Node.getName h), (nodeMap.find s).isSome := by
    intro s hs
    obtain ⟨n, hn, rfl⟩ := List.mem_map.mp hs
    exact find_of_named hu (hd.inputs n hn)
  have hout : ∀ s ∈ (h.graph x).outputNodesInfo.map (fun o => Node.getName h o.1), (nodeMap.find s).isSome := by
    intro s hs
    obtain ⟨e, he, rfl⟩ := List.mem_map.mp hs
    exact find_of_named hu (hd.outputs e he)
  have hinputs := eachOk_decodeInput _ hmem hin
  obtain ⟨mid, hmid⟩ : ∃ mid, mid = v.setGraph g { v.graph g with
      inputNodes := (v.graph g).inputNodes ++ ((h.graph x).inputNodes.map (Node.getName h)).filterMap nodeMap.find } := ⟨_, rfl⟩
  rw [← hmid] at hinputs
  have houtputs := eachOk_decodeOutput (g := g) (t := mid) _ (fun s n hn => by rw [hmid]; simpa using hmem s n hn) hout
  obtain ⟨w, hw⟩ : ∃ w, w = mid.setGraph g { mid.graph g with
      outputNodesInfo := (((h.graph x).outputNodesInfo.map fun o => Node.getName h o.1).filterMap nodeMap.find).foldl
        (enterOutput mid) (mid.graph g).outputNodesInfo } := ⟨_, rfl⟩
  rw [← hw] at houtputs
  have hwgraph : w.graph g = { t.graph g with
      inputNodes := ((h.graph x).inputNodes.map (Node.getName h)).filterMap nodeMap.find
      outputNodesInfo := (((h.graph x).outputNodesInfo.map fun o => Node.getName h o.1).filterMap nodeMap.find).foldl
        (enterOutput t) [] } := by
    have henter : enterOutput mid = enterOutput t := by
      funext l n
      unfold enterOutput Node.getName Heap.desc
      rw [show mid.op = t.op by rw [hmid]; exact hsame.op, show mid.node = t.node by rw [hmid]; exact hsame.node]
    rw [hw, setGraph_graph, if_pos rfl, henter, hmid, setGraph_graph, if_pos rfl, hgraph, hu.inputs, hu.outputs]
    rfl
  have hwop : w.op = t.op := by rw [hw, hmid]; exact hsame.op
  have hwnode : w.node = t.node := by rw [hw, hmid]; exact hsame.node
  have hdesc : ∀ n, w.desc n = t.desc n := fun n => by rw [Heap.desc, hwop, hwnode, Heap.desc]
  have hwpeers : w.peers = v.peers := by rw [hw, hmid]; rfl
  have howner : ∀ a, w.owner a = t.owner a := fun a => by rw [hw, hmid]; exact hsame.owner a
  have hanchors : ∀ n, w.inAnchors n = t.inAnchors n := by
    intro n
    simp only [Heap.inAnchors, Heap.anchorsOf, hwnode]
  have hlayout : t.SameLayout w := by rw [hw, hmid]; exact
    ⟨hsame.nodeCount, hsame.anchorCount, hsame.node, hsame.kind, hsame.owner, hsame.idx⟩
  obtain ⟨houtNames, houtFrom⟩ := foldl_enterOutput t
    (((h.graph x).outputNodesInfo.map fun o => Node.getName h o.1).filterMap nodeMap.find) [] (by simp)
  rw [map_getName_filterMap hu hout] at houtNames
  have hnamesMem : ∀ {names : List String}, ∀ n ∈ names.filterMap nodeMap.find, n ∈ (t.graph g).nodes := by
    intro names n hn
    obtain ⟨s, -, hs⟩ := mem_filterMap.mp hn
    exact (named_of_find hu hs).1
  refine ⟨w, ?_, ⟨hlayout, ?_, ?_, hwop, fun y hy => ?_, by rw [hwgraph], by rw [hwgraph], fun b hb => ?_⟩, ?_,
    ⟨?_, ?_, ?_, ?_, ?_⟩, ?_⟩
  · unfold finish
    rw [bind_of_eq hlinks, if_neg (by simp), bind_of_eq hinputs, if_neg (by simp), bind_of_eq houtputs, if_neg (by simp)]
    rfl
  · rw [hw, hmid]
    exact hsame.opCount
  · rw [hw, hmid]
    exact hsame.graphCount
  · rw [hw, setGraph_graph, if_neg hy, hmid, setGraph_graph, if_neg hy, hgraph]
  · rw [hwpeers]
    exact hpeers b hb
  · rw [hw, hmid]
    exact GraphSteps.sound_setGraph (GraphSteps.sound_setGraph hsound g _) g _
  · rw [hw, hmid]
    show g < v.graphCount
    rw [hsame.graphCount]
    exact hu.made
  · intro n hn
    rw [hwgraph] at hn
    obtain ⟨m, -, hcopy⟩ := exists_of_forall₂ hu.copied.flip hn
    rw [hlayout.nodeCount, hwnode, show w.opCount = t.opCount by rw [hw, hmid]; exact hsame.opCount]
    exact ⟨hcopy.made, hcopy.opMade⟩
  · rw [hwgraph]
    exact hnamesMem
  · rw [hwgraph]
    intro e he
    rcases houtFrom e he with he | he
    · cases he
    · exact hnamesMem _ he
  · rw [hwgraph]
    intro n hn b hb a ha
    rw [howner]
    rw [hanchors] at hb
    rw [hwpeers] at ha
    exact hsources n hn b hb a ha
  · have hname : ∀ n, Node.getName w n = Node.getName t n := fun n => getName_congr (hdesc n)
    unfold Heap.structureOf readStructure
    rw [hwgraph, GraphStructure.mk.injEq]
    refine ⟨?_, ?_, ?_, ?_⟩
    · rw [← forall₂_eq_eq_eq, forall₂_map_left_iff, forall₂_map_right_iff]
      refine hu.copied.flip.imp fun n m hcopy => ?_
      rw [hname, getType_congr (hdesc n), hcopy.name, hcopy.type]
    · refine Multiset.coe_eq_coe.mpr ?_
      have hsameEdges : w.edgesInto (t.graph g).nodes = v.edgesInto (t.graph g).nodes := by rw [hw, hmid]; rfl
      rw [hsameEdges]
      exact hedges
    · rw [map_congr_left fun n _ => hname n]
      exact map_getName_filterMap hu hin
    · rw [map_congr_left fun e _ => by rw [hname e.1]]
      exact houtNames

/-- Finishing a graph that succeeds has found all that its message names. -/
theorem decodable_of_finish (hs : h.Sound) (hidx : ∀ a < h.anchorCount, (h.anchor a).idx < 2 ^ 31)
    (hmade : ∀ n ∈ (h.graph x).nodes, n < h.nodeCount) (hu : h.Unlinked attrs t g (h.graph x).nodes nodeMap) {r : GraphId}
    (hr : finish g nodeMap ((h.graph x).nodes.map (encodeNode attrs level h)) ((h.graph x).inputNodes.map (Node.getName h))
        ((h.graph x).outputNodesInfo.map fun o => Node.getName h o.1) t = some (some r, w)) :
    r = g ∧ h.Decodable attrs x := by
  obtain ⟨ok, v, hlinks, hr⟩ := bind_eq_some.mp hr
  cases ok with
  | false => simp at hr
  | true =>
  rw [if_neg (by simp)] at hr
  obtain ⟨ok, mid, hinputs, hr⟩ := bind_eq_some.mp hr
  cases ok with
  | false => simp at hr
  | true =>
  rw [if_neg (by simp)] at hr
  obtain ⟨ok, y, houtputs, hr⟩ := bind_eq_some.mp hr
  cases ok with
  | false => simp at hr
  | true =>
  rw [if_neg (by simp), pure_apply] at hr
  have hin := forall_of_eachOk (P := fun s => (nodeMap.find s).isSome) (fun s u v hv => by
    unfold decodeInput at hv
    cases hf : nodeMap.find s with
    | some n => rfl
    | none => simp [hf] at hv) hinputs
  have hout := forall_of_eachOk (P := fun s => (nodeMap.find s).isSome) (fun s u v hv => by
    unfold decodeOutput at hv
    cases hf : nodeMap.find s with
    | some n => rfl
    | none => simp [hf] at hv) houtputs
  have hnamed : ∀ s, (nodeMap.find s).isSome → ∃ m ∈ (h.graph x).nodes, Node.getName h m = s := by
    intro s hf
    obtain ⟨n, hn⟩ := Option.isSome_iff_exists.mp hf
    exact (named_of_find hu hn).2.2
  refine ⟨(Option.some.inj (Prod.mk.inj (Option.some.inj hr)).1).symm, found_of_decodeNodeLink hs hidx hu hmade hlinks,
    fun n hn => ?_,
    fun e he => ?_⟩
  · exact hnamed _ (hin _ (mem_map_of_mem hn))
  · exact hnamed _ (hout _ (List.mem_map.mpr ⟨e, he, rfl⟩))

/-! ## Graphs among the nodes -/

/-- What `AddSubGraph` leaves. -/
def subGraphAdded (w : Heap) (g y : GraphId) : Heap :=
  w.setGraph g { w.graph g with
    subGraph := (w.graph g).subGraph ++ [y]
    namesToSubgraph := (w.graph g).namesToSubgraph.assign (w.graph y).name y }

theorem addSubGraph_eq (w : Heap) {y : GraphId} (hy : y ≠ g) :
    ComputeGraph.addSubGraph g (some y) w = some (some y, subGraphAdded w g y) := by
  simp [ComputeGraph.addSubGraph, ComputeGraph.edit, subGraphAdded, Heap.setGraph, hy]

theorem grown_setGraph (w : Heap) (g : GraphId) (x : ComputeGraph) : Heap.Grown g w (w.setGraph g x) :=
  ⟨Nat.le_refl _, Nat.le_refl _, Nat.le_refl _, Nat.le_refl _, fun _ _ => rfl, fun _ _ => rfl, fun _ _ => rfl,
    fun y _ hy => by simp [hy]⟩

end OnnxDecodingAux

end Metadef
