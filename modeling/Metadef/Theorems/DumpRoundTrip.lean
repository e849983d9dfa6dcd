import Metadef.Lemmas.OnnxDecoding
import Metadef.Theorems.SavedLoads

/-!
# What a dump gives back

A model that is dumped is read back with the structure of its graphs exactly when no input has a link the texts leave out, the graphs
have the nodes their links, inputs and outputs name, and outputs are first outputs of different nodes.
-/

namespace Metadef

open List GraphSteps LinkSymmetryAux Heap

namespace OnnxUtils

/-- A model dumped is read back, wherever, with the structure of the root graph and of the graphs registered in it. -/
def RoundTrips (attrs : NodeId → List (String × Int)) (level : DumpLevel) (h : Heap) (root : GraphId) : Prop :=
  ∀ u : Heap, u.Sound → ∃ g t,
    convertModelProtoToGeModel (convertGeModelToModelProto attrs level h root) u = some (some g, t) ∧
      t.structureOf g = h.structureOf root ∧ (t.graph g).subGraph.map t.structureOf = (h.graph root).subGraph.map h.structureOf

end OnnxUtils

/-- A graph that is read back as it was. A data input has no link or one from a data output, a control input has links from control
outputs, their sources are nodes by name of the graph that are read back with as many outputs, and outputs are the first of their nodes,
each of another name. -/
structure Heap.Dumpable (attrs : NodeId → List (String × Int)) (h : Heap) (g : GraphId) : Prop where
  data : ∀ n ∈ (h.graph g).nodes, ∀ a ∈ (h.node n).inDataAnchors, (h.peers a).length ≤ 1 ∧ ∀ p ∈ h.peers a, h.kind p = .outData
  control : ∀ n ∈ (h.graph g).nodes, ∀ p ∈ h.peers (h.node n).inControlAnchor, h.kind p = .outControl
  sources : ∀ n ∈ (h.graph g).nodes, ∀ b ∈ h.inAnchors n, ∀ a ∈ h.peers b, ∃ m ∈ (h.graph g).nodes,
    Node.getName h m = Node.getName h (h.owner a) ∧ (h.kind a = .outData →
      (h.anchor a).idx < OnnxUtils.outputsRead attrs h m ∧ (h.anchor b).idx < OnnxUtils.inputsRead attrs h n)
  inputs : ∀ n ∈ (h.graph g).inputNodes, h.HasNamed g (Node.getName h n)
  outputs : ∀ e ∈ (h.graph g).outputNodesInfo, h.HasNamed g (Node.getName h e.1) ∧ e.2 = 0
  outputsOnce : ((h.graph g).outputNodesInfo.map fun e => Node.getName h e.1).Nodup

namespace DumpRoundTripAux

open Cmd OnnxUtils OnnxGraphsAux OnnxLinksAux OnnxDecodingAux StructureAux LinkListsAux

variable {attrs : NodeId → List (String × Int)} {level : DumpLevel} {h t u v w : Heap} {g x y : GraphId} {n : NodeId}
  {nodeMap : OrderedMap String NodeId} {nodes : List NodeId}

/-! ## What is left out -/

/-- The links into an input that are written. -/
def writtenFrom (h : Heap) (b : AnchorId) : List AnchorId :=
  if h.kind b = .inData then (InDataAnchor.getPeerOutAnchor h b).toList else InControlAnchor.getPeerOutControlAnchors h b

theorem writtenLinks_eq (hs : h.Sound) (hn : n < h.nodeCount) :
    h.writtenLinks n = (h.inAnchors n).flatMap fun b => (writtenFrom h b).map fun p => (p, b) := by
  unfold Heap.writtenLinks Heap.inAnchors
  rw [flatMap_append]
  congr 1
  · show _ = (h.anchorsOf n .inData).flatMap _
    rw [show (h.node n).inDataAnchors = h.anchorsOf n .inData from rfl]
    have hkind : ∀ a ∈ h.anchorsOf n .inData, h.kind a = .inData := hs.laid.kind n hn .inData
    generalize h.anchorsOf n .inData = l at hkind ⊢
    induction l with
    | nil => rfl
    | cons a l ih =>
      rw [flatMap_cons, ← ih fun b hb => hkind b (mem_cons_of_mem a hb), writtenFrom, if_pos (hkind a mem_cons_self)]
      cases hp : InDataAnchor.getPeerOutAnchor h a with
      | none => simp [hp]
      | some p => simp [hp]
  · have hkind : h.kind (h.node n).inControlAnchor = .inControl := hs.laid.kind n hn .inControl _ (mem_singleton.mpr rfl)
    show _ = [(h.node n).inControlAnchor].flatMap _
    rw [flatMap_singleton, writtenFrom, if_neg (by rw [hkind]; decide)]

theorem writtenFrom_sublist (h : Heap) (b : AnchorId) : (writtenFrom h b).Sublist (h.peers b) := by
  unfold writtenFrom
  split
  · unfold InDataAnchor.getPeerOutAnchor
    split
    · exact nil_sublist _
    · rename_i p l hp
      rw [hp]
      split
      · exact (nil_sublist l).cons_cons p
      · exact nil_sublist _
  · exact filter_sublist

/-- Lists in place of longer ones are those where they are as long together. -/
theorem eq_of_length_flatMap {α β : Type} {f f' : α → List β} {l : List α} (hsub : ∀ a ∈ l, (f a).Sublist (f' a))
    (hlen : (l.flatMap f).length = (l.flatMap f').length) : ∀ a ∈ l, f a = f' a := by
  induction l with
  | nil => exact fun a ha => absurd ha not_mem_nil
  | cons b l ih =>
    have hle : ∀ l : List α, (∀ a ∈ l, (f a).Sublist (f' a)) → (l.flatMap f).length ≤ (l.flatMap f').length := by
      intro l hl
      induction l with
      | nil => exact Nat.le_refl _
      | cons a l ih =>
        rw [flatMap_cons, flatMap_cons, length_append, length_append]
        exact Nat.add_le_add (hl a mem_cons_self).length_le (ih fun c hc => hl c (mem_cons_of_mem a hc))
    have hb := hsub b mem_cons_self
    have hrest := hle l fun a ha => hsub a (mem_cons_of_mem b ha)
    have hfirst := hb.length_le
    rw [flatMap_cons, flatMap_cons, length_append, length_append] at hlen
    intro a ha
    rcases mem_cons.mp ha with rfl | ha
    · exact hb.eq_of_length (by omega)
    · exact ih (fun c hc => hsub c (mem_cons_of_mem b hc)) (by omega) a ha

/-- No edge is left out when each input has no other links than those written. -/
theorem edges_eq_iff (hs : h.Sound) (hmade : ∀ n ∈ nodes, n < h.nodeCount) :
    (((nodes.flatMap h.writtenLinks).map fun e => h.edgeName e.1 e.2 : List EdgeName) : Multiset EdgeName) = h.edgesInto nodes ↔
      ∀ n ∈ nodes, ∀ b ∈ h.inAnchors n, writtenFrom h b = h.peers b := by
  have hwritten : (nodes.flatMap h.writtenLinks).map (fun e => h.edgeName e.1 e.2) =
      (nodes.flatMap h.inAnchors).flatMap fun b => (writtenFrom h b).map fun a => h.edgeName a b := by
    rw [flatMap_congr fun n hn => writtenLinks_eq hs (hmade n hn), map_flatMap, flatMap_assoc]
    refine flatMap_congr fun n _ => ?_
    rw [map_flatMap]
    refine flatMap_congr fun b _ => ?_
    rw [map_map]
    rfl
  rw [hwritten, Multiset.coe_eq_coe]
  unfold Heap.edgesInto
  constructor
  · intro hperm n hn b hb
    have heq := eq_of_length_flatMap (fun b _ => (writtenFrom_sublist h b).map fun a => h.edgeName a b) hperm.length_eq b
      (mem_flatMap.mpr ⟨n, hn, hb⟩)
    have hlen := congrArg List.length heq
    rw [length_map, length_map] at hlen
    exact (writtenFrom_sublist h b).eq_of_length hlen
  · intro hall
    refine .of_eq (flatMap_congr fun b hb => ?_)
    obtain ⟨n, hn, hb⟩ := mem_flatMap.mp hb
    rw [hall n hn b hb]

/-- The names entered are all there are when none comes twice. -/
theorem foldl_enterName (l : List String) : ∀ acc : List String, acc.Nodup → (l.foldl enterName acc).Nodup ∧
    ((acc ++ l).Nodup → l.foldl enterName acc = acc ++ l) := by
  induction l with
  | nil => exact fun acc hacc => ⟨hacc, fun _ => by simp⟩
  | cons s l ih =>
    intro acc hacc
    rw [foldl_cons]
    by_cases hs : s ∈ acc
    · rw [show enterName acc s = acc from if_pos hs]
      refine ⟨(ih acc hacc).1, fun hnd => ?_⟩
      exact absurd rfl ((nodup_append.mp hnd).2.2 s hs s mem_cons_self)
    · rw [show enterName acc s = acc ++ [s] from if_neg hs]
      have hnew : (acc ++ [s]).Nodup := by
        refine nodup_append.mpr ⟨hacc, nodup_singleton s, fun a ha b hb hab => hs ?_⟩
        rw [← mem_singleton.mp hb, ← hab]
        exact ha
      obtain ⟨h1, h2⟩ := ih (acc ++ [s]) hnew
      rw [append_assoc, singleton_append] at h2
      exact ⟨h1, h2⟩

/-- Outputs by name are the outputs when they are first outputs of different names. -/
theorem outputs_eq_iff (l : List (NodeId × Int)) : ((l.map fun e => Node.getName h e.1).foldl enterName []).map
    (fun s => (s, (0 : Int))) =
    l.map (fun e => (Node.getName h e.1, e.2)) ↔ (∀ e ∈ l, e.2 = 0) ∧ (l.map fun e => Node.getName h e.1).Nodup := by
  obtain ⟨hnd, hall⟩ := foldl_enterName (l.map fun e => Node.getName h e.1) [] .nil
  rw [nil_append] at hall
  constructor
  · intro heq
    have hnames := congrArg (List.map Prod.fst) heq
    rw [map_map, map_map] at hnames
    have hsame : (l.map fun e => Node.getName h e.1).foldl enterName [] = l.map fun e => Node.getName h e.1 := by
      simpa [Function.comp_def] using hnames
    rw [hsame] at hnd heq
    rw [map_map] at heq
    exact ⟨fun e he => (Prod.mk.inj (map_inj_left.mp heq e he)).2.symm, hnd⟩
  · rintro ⟨hzero, hnd⟩
    rw [hall hnd, map_map]
    exact map_congr_left fun e he => by rw [hzero e he]; rfl

/-- A data input has no links but those written when it has no link or one of a data output. -/
theorem writtenFrom_data {a : AnchorId} (hk : h.kind a = .inData) :
    writtenFrom h a = h.peers a ↔ (h.peers a).length ≤ 1 ∧ ∀ p ∈ h.peers a, h.kind p = .outData := by
  rw [writtenFrom, if_pos hk, InDataAnchor.getPeerOutAnchor]
  cases hp : h.peers a with
  | nil => simp
  | cons p l =>
    by_cases hkp : h.kind p = .outData
    · cases l with
      | nil => simp [hkp]
      | cons q l => simp [hkp]
    · simp [hkp]

theorem writtenFrom_control {a : AnchorId} (hk : h.kind a = .inControl) :
    writtenFrom h a = h.peers a ↔ ∀ p ∈ h.peers a, h.kind p = .outControl := by
  rw [writtenFrom, if_neg (by rw [hk]; decide)]
  unfold InControlAnchor.getPeerOutControlAnchors Anchor.getPeersOf
  simp [filter_eq_self]

/-- What is read back is what was, of all that is named, when the graph is dumpable. -/
theorem dumpable_iff (hs : h.Sound) (hmade : ∀ n ∈ (h.graph g).nodes, n < h.nodeCount) :
    h.Decodable attrs g ∧ readStructure h g = h.structureOf g ↔ h.Dumpable attrs g := by
  have hstructure : readStructure h g = h.structureOf g ↔
    (∀ n ∈ (h.graph g).nodes, ∀ b ∈ h.inAnchors n, writtenFrom h b = h.peers b) ∧
      (∀ e ∈ (h.graph g).outputNodesInfo, e.2 = 0) ∧ ((h.graph g).outputNodesInfo.map fun e => Node.getName h e.1).Nodup := by
    unfold readStructure Heap.structureOf
    rw [GraphStructure.mk.injEq, edges_eq_iff hs hmade, outputs_eq_iff]
    simp
  have hanchors : (∀ n ∈ (h.graph g).nodes, ∀ b ∈ h.inAnchors n, writtenFrom h b = h.peers b) ↔
      (∀ n ∈ (h.graph g).nodes, ∀ a ∈ (h.node n).inDataAnchors, (h.peers a).length ≤ 1 ∧ ∀ p ∈ h.peers a, h.kind p = .outData) ∧
        ∀ n ∈ (h.graph g).nodes, ∀ p ∈ h.peers (h.node n).inControlAnchor, h.kind p = .outControl := by
    have hdata : ∀ n ∈ (h.graph g).nodes, ∀ a ∈ (h.node n).inDataAnchors, h.kind a = .inData :=
      fun n hn a ha => hs.laid.kind n (hmade n hn) .inData a ha
    have hcontrol : ∀ n ∈ (h.graph g).nodes, h.kind (h.node n).inControlAnchor = .inControl :=
      fun n hn => hs.laid.kind n (hmade n hn) .inControl _ (mem_singleton.mpr rfl)
    constructor
    · intro hall
      exact ⟨fun n hn a ha => (writtenFrom_data (hdata n hn a ha)).mp (hall n hn a (mem_append_left _ ha)),
        fun n hn => (writtenFrom_control (hcontrol n hn)).mp (hall n hn _ (mem_append_right _ (mem_singleton.mpr rfl)))⟩
    · rintro ⟨hd, hc⟩ n hn b hb
      rcases mem_append.mp hb with hb | hb
      · exact (writtenFrom_data (hdata n hn b hb)).mpr (hd n hn b hb)
      · rw [mem_singleton.mp hb]
        exact (writtenFrom_control (hcontrol n hn)).mpr (hc n hn)
  -- with no link left out, the links written are all links
  have hlinks : (∀ n ∈ (h.graph g).nodes, ∀ b ∈ h.inAnchors n, writtenFrom h b = h.peers b) →
      (h.LinksFound attrs (h.graph g).nodes ↔ ∀ n ∈ (h.graph g).nodes, ∀ b ∈ h.inAnchors n, ∀ a ∈ h.peers b, ∃ m ∈
        (h.graph g).nodes,
        Node.getName h m = Node.getName h (h.owner a) ∧ (h.kind a = .outData →
          (h.anchor a).idx < outputsRead attrs h m ∧ (h.anchor b).idx < inputsRead attrs h n)) := by
    intro hall
    constructor
    · intro hfound n hn b hb a ha
      refine hfound n hn (a, b) ?_
      rw [writtenLinks_eq hs (hmade n hn)]
      exact mem_flatMap.mpr ⟨b, hb, List.mem_map.mpr ⟨a, hall n hn b hb ▸ ha, rfl⟩⟩
    · intro hsources n hn e he
      rw [writtenLinks_eq hs (hmade n hn)] at he
      obtain ⟨b, hb, he⟩ := mem_flatMap.mp he
      obtain ⟨a, ha, rfl⟩ := List.mem_map.mp he
      exact hsources n hn b hb a (hall n hn b hb ▸ ha)
  constructor
  · rintro ⟨hdec, heq⟩
    obtain ⟨hall, hzero, hnd⟩ := hstructure.mp heq
    obtain ⟨hdata, hcontrol⟩ := hanchors.mp hall
    exact ⟨hdata, hcontrol, (hlinks hall).mp hdec.links, hdec.inputs, fun e he => ⟨hdec.outputs e he, hzero e he⟩, hnd⟩
  · intro hd
    have hall := hanchors.mpr ⟨hd.data, hd.control⟩
    exact ⟨⟨(hlinks hall).mpr hd.sources, hd.inputs, fun e he => (hd.outputs e he).1⟩,
      hstructure.mpr ⟨hall, fun e he => (hd.outputs e he).2, hd.outputsOnce⟩⟩

/-! ## Reading a graph -/

/-- What is read of a graph's nodes is not linked. -/
theorem unlinked_of_decoded (hs : u.Sound) (hg : g < u.graphCount)
    (hfresh : (u.graph g).inputNodes = [] ∧ (u.graph g).outputNodesInfo = [])
    (hd : h.NodesDecoded attrs u t g nodes nodeMap) : h.Unlinked attrs t g nodes nodeMap := by
  refine ⟨hd.sound, Nat.lt_of_lt_of_le hg hd.grown.graphCount, hd.copied, hd.nodup, hd.found, hd.known, fun n hn b hb => ?_, ?_, ?_⟩
  · obtain ⟨m, -, hcopy⟩ := exists_of_forall₂ hd.copied.flip hn
    have howner := ((mem_inAnchors hd.sound.laid hcopy.made).mp hb).2.1
    rw [hd.peers]
    refine eq_nil_iff_forall_not_mem.mpr fun a ha => ?_
    -- an anchor with peers was there before the node
    have hheld := hs.symm.held hs.peersHeld ha
    have hanchor := hd.grown.anchor b (hs.laid.made _ hheld.1 _ b hheld.2)
    rw [Heap.owner, hanchor] at howner
    have hold : u.owner b < u.nodeCount := hheld.1
    rw [show u.owner b = n from howner] at hold
    exact absurd (hd.fresh n hn).1 (Nat.not_le.mpr hold)
  · rw [hd.listed]
    exact hfresh.1
  · rw [hd.listed]
    exact hfresh.2

/-- What is not linked stays so when new objects are made. -/
theorem Unlinked.grown (hu : h.Unlinked attrs t g nodes nodeMap) (hv : v.Sound) (hg : Heap.Grown g t v)
    (hnodes : (v.graph g).nodes = (t.graph g).nodes) (hinputs : (v.graph g).inputNodes = (t.graph g).inputNodes)
    (houtputs : (v.graph g).outputNodesInfo = (t.graph g).outputNodesInfo) : h.Unlinked attrs v g nodes nodeMap := by
  refine ⟨hv, Nat.lt_of_lt_of_le hu.made hg.graphCount, ?_, ?_, ?_, ?_, fun n hn b hb => ?_, hinputs.trans hu.inputs,
    houtputs.trans hu.outputs⟩
  · rw [hnodes]
    exact hu.copied.imp fun _ _ hc => NodeCopied.grown hc hg
  · rw [hnodes]
    exact hu.nodup
  · rw [hnodes]
    exact hu.found
  · rw [hnodes]
    exact hu.known
  · rw [hnodes] at hn
    obtain ⟨m, -, hcopy⟩ := exists_of_forall₂ hu.copied.flip hn
    rw [Grown.inAnchors hg hcopy.made] at hb
    have hheld := ((mem_inAnchors hu.sound.laid hcopy.made).mp hb).1
    rw [Heap.peers, hg.anchor b (hu.sound.laid.made _ hheld.1 _ b hheld.2)]
    exact hu.free n hn b hb

/-- The state in which the nodes of a graph are read, from one in which it was not made. -/
structure NodesRead (attrs : NodeId → List (String × Int)) (h u t : Heap) (x : GraphId) (nodeMap : OrderedMap String NodeId) :
    Prop where
  grown : Heap.Grown u.graphCount u t
  unlinked : h.Unlinked attrs t u.graphCount (h.graph x).nodes nodeMap
  fresh : ∀ n ∈ (t.graph u.graphCount).nodes, u.nodeCount ≤ n ∧ ∀ k, ∀ a ∈ t.anchorsOf n k, u.anchorCount ≤ a
  subGraph : (t.graph u.graphCount).subGraph = []

/-- Reading a graph reads its nodes, and goes on with the rest of its message. -/
theorem decodeGraph_eq (attrs : NodeId → List (String × Int)) (hlevel : level ≠ .dumpWithOutDesc) (hu : u.Sound)
    (hnames : ((h.graph x).nodes.map (Node.getName h)).Nodup)
    (depth : Nat) (more : List (NodeProto GraphProto)) : ∃ nodeMap t, NodesRead attrs h u t x nodeMap ∧
      decodeGraph (depth + 1) (encodeGraph attrs level h x more) u = (do
        let some (nodeMap, protos) ← decodeNodes (decodeGraph depth) u.graphCount more nodeMap
          ((h.graph x).nodes.map (encodeNode attrs level h)) | return none
        finish u.graphCount nodeMap protos ((h.graph x).inputNodes.map (Node.getName h))
          ((h.graph x).outputNodesInfo.map fun o => Node.getName h o.1) : Cmd Heap (Option GraphId)) t := by
  obtain ⟨start, hstart⟩ : ∃ start : Heap, start =
      { u with graphCount := u.graphCount + 1 }.setGraph u.graphCount { name := (h.graph x).name } := ⟨_, rfl⟩
  have hnew : start.graph u.graphCount = { name := (h.graph x).name } := by simp [hstart]
  have hsound : start.Sound := by
    rw [hstart]
    exact hu.of_anchors rfl rfl rfl rfl
  have hgrown : Heap.Grown u.graphCount u start := by
    rw [hstart]
    exact ⟨Nat.le_refl _, Nat.le_refl _, Nat.le_refl _, Nat.le_succ _, fun _ _ => rfl, fun _ _ => rfl, fun _ _ => rfl,
      fun y _ hy => by simp [hy]⟩
  have hcount : u.graphCount < start.graphCount := by
    rw [hstart]
    exact Nat.lt_succ_self _
  have hnone : h.NodesDecoded attrs start start u.graphCount [] [] := by
    refine ⟨Grown.refl _ _, hsound, rfl, rfl, rfl, ?_, ?_, ?_, ?_, fun s n hn => by cases hn⟩
    all_goals rw [hnew]
    · exact .nil
    · exact fun n hn => absurd hn not_mem_nil
    · exact .nil
    · exact fun e he => absurd he not_mem_nil
  obtain ⟨nodeMap, t, hrun, hdec⟩ := decodeNodes_written hlevel (decodeGraph depth) more (h.graph x).nodes [] hnone
    (by simpa using hnames)
  rw [nil_append] at hdec
  refine ⟨nodeMap, t, ⟨Grown.trans hgrown hdec.grown, unlinked_of_decoded hsound hcount (by rw [hnew]; exact ⟨rfl, rfl⟩) hdec,
    fun n hn => ⟨Nat.le_trans hgrown.nodeCount (hdec.fresh n hn).1, fun k a ha => Nat.le_trans hgrown.anchorCount
      ((hdec.fresh n hn).2 k a ha)⟩, by rw [hdec.listed, hnew]⟩, ?_⟩
  have hmake : ModelSerializeImp.makeGraph (h.graph x).name u = some (u.graphCount, start) := by
    rw [hstart]
    rfl
  unfold encodeGraph
  rw [decodeGraph, bind_of_eq hmake]
  simp only [bind, StateT.bind, hrun, nil_append]
  rfl

/-! ## Reading a subgraph -/

/-- A graph read into a state from which it was not. -/
structure GraphRead (h u w : Heap) (x : GraphId) : Prop where
  grown : Heap.Grown u.graphCount u w
  sound : w.Sound
  made : w.GraphMade u.graphCount
  same : w.structureOf u.graphCount = readStructure h x
  fresh : ∀ n ∈ (w.graph u.graphCount).nodes, u.nodeCount ≤ n

theorem anchor_ext {a : AnchorId} (ha : w.kind a = t.kind a ∧ w.owner a = t.owner a ∧ (w.anchor a).idx = (t.anchor a).idx ∧
    w.peers a = t.peers a) : w.anchor a = t.anchor a := by
  obtain ⟨hkind, howner, hidx, hpeers⟩ := ha
  unfold Heap.kind at hkind
  unfold Heap.owner at howner
  unfold Heap.peers at hpeers
  cases hw : w.anchor a
  cases ht : t.anchor a
  simp_all

/-- What is finished of a graph that is read leaves what was made before. -/
theorem grown_of_finished (hr : NodesRead attrs h u t x nodeMap) (hf : Heap.Finished u.graphCount t w) :
    Heap.Grown u.graphCount u w := by
  refine ⟨?_, ?_, ?_, ?_, fun o ho => ?_, fun n hn => ?_, fun a ha => ?_, fun y hy hne => ?_⟩
  · rw [hf.opCount]
    exact hr.grown.opCount
  · rw [hf.nodeCount]
    exact hr.grown.nodeCount
  · rw [hf.anchorCount]
    exact hr.grown.anchorCount
  · rw [hf.graphCount]
    exact hr.grown.graphCount
  · rw [hf.op]
    exact hr.grown.op o ho
  · rw [hf.node]
    exact hr.grown.node n hn
  · -- an anchor that was made before is none of the nodes that are linked
    rw [← hr.grown.anchor a ha]
    have hpeers := hf.peers a fun n hn k hk => absurd ((hr.fresh n hn).2 k a hk) (Nat.not_le.mpr ha)
    exact anchor_ext ⟨hf.kind a, hf.owner a, hf.idx a, hpeers⟩
  · rw [hf.graph y hne]
    exact hr.grown.graph y hy hne

section

variable (hs : h.Sound) (hidx : ∀ a < h.anchorCount, (h.anchor a).idx < 2 ^ 31) (hlevel : level ≠ .dumpWithOutDesc)

include hs hidx hlevel in
/-- A graph without subgraph nodes is read when its message names nothing but its nodes. -/
theorem decodeGraph_plain (attrs : NodeId → List (String × Int)) (hmade : ∀ n ∈ (h.graph x).nodes, n < h.nodeCount)
    (hnames : ((h.graph x).nodes.map (Node.getName h)).Nodup)
    (hu : u.Sound) (depth : Nat) :
    (h.Decodable attrs x → ∃ w, decodeGraph (depth + 1) (encodeGraph attrs level h x []) u = some (some u.graphCount, w) ∧
      GraphRead h u w x) ∧
    ∀ r w, decodeGraph (depth + 1) (encodeGraph attrs level h x []) u = some (some r, w) → h.Decodable attrs x := by
  obtain ⟨nodeMap, t, hread, hrun⟩ := decodeGraph_eq attrs hlevel hu hnames depth []
  rw [decodeNodes, pure_bind_apply] at hrun
  dsimp only at hrun
  constructor
  · intro hd
    obtain ⟨w, hfinish, hfinished, hsound, hgraph, hsame⟩ := finish_spec level hs hidx hmade hread.unlinked hd
    refine ⟨w, hrun.trans hfinish, grown_of_finished hread hfinished, hsound, hgraph, hsame, fun n hn => ?_⟩
    rw [hfinished.nodes] at hn
    exact (hread.fresh n hn).1
  · intro r w hr
    exact (decodable_of_finish hs hidx hmade hread.unlinked (hrun.symm.trans hr)).2

/-! ## Reading the subgraphs -/

/-- A subgraph read since some state. -/
structure SubRead (h t v : Heap) (g x y : GraphId) : Prop where
  ne : y ≠ g
  made : v.GraphMade y
  same : v.structureOf y = readStructure h x
  fresh : ∀ n ∈ (v.graph y).nodes, t.nodeCount ≤ n

/-- The subgraphs of a graph read since some state, of which nothing else of the graph differs. -/
structure SubsRead (h t v : Heap) (g : GraphId) (xs : List GraphId) : Prop where
  grown : Heap.Grown g t v
  sound : v.Sound
  nodes : (v.graph g).nodes = (t.graph g).nodes
  inputs : (v.graph g).inputNodes = (t.graph g).inputNodes
  outputs : (v.graph g).outputNodesInfo = (t.graph g).outputNodesInfo
  read : List.Forall₂ (SubRead h t v g) xs (v.graph g).subGraph

theorem SubRead.grown {t' : Heap} (hr : SubRead h t' v g x y) (hv : v.Sound) (hg : Heap.Grown g v w) : SubRead h t' w g x y := by
  obtain ⟨hmade, hsame⟩ := Grown.structureOf hv hr.made hg hr.ne
  refine ⟨hr.ne, hmade, hsame.trans hr.same, fun n hn => hr.fresh n ?_⟩
  rwa [hg.graph y hr.made.made hr.ne] at hn

/-- One more subgraph is read and registered. -/
theorem SubsRead.next {xs : List GraphId} (hsub : SubsRead h t v g xs) (hg : g < v.graphCount) (hread : GraphRead h v w x) :
    SubsRead h t (subGraphAdded w g v.graphCount) g (xs ++ [x]) := by
  have hne : v.graphCount ≠ g := (Nat.ne_of_lt hg).symm
  have hgrown : Heap.Grown g v w := Grown.of_new hread.grown g
  have hkept : w.graph g = v.graph g := hread.grown.graph g hg (Nat.ne_of_lt hg)
  have hadded := grown_setGraph w g { w.graph g with
    subGraph := (w.graph g).subGraph ++ [v.graphCount]
    namesToSubgraph := (w.graph g).namesToSubgraph.assign (w.graph v.graphCount).name v.graphCount }
  have hthis : (subGraphAdded w g v.graphCount).graph g = { v.graph g with
      subGraph := (v.graph g).subGraph ++ [v.graphCount]
      namesToSubgraph := (v.graph g).namesToSubgraph.assign (w.graph v.graphCount).name v.graphCount } := by
    rw [subGraphAdded, setGraph_graph, if_pos rfl, hkept]
  have hnew : SubRead h t w g x v.graphCount :=
    ⟨hne, hread.made, hread.same, fun n hn => hsub.grown.nodeCount.trans (hread.fresh n hn)⟩
  refine ⟨Grown.trans hsub.grown (Grown.trans hgrown hadded), sound_setGraph hread.sound g _, ?_, ?_, ?_, ?_⟩
  all_goals rw [hthis]
  · exact hsub.nodes
  · exact hsub.inputs
  · exact hsub.outputs
  · exact rel_append (hsub.read.imp fun _ _ hr => SubRead.grown hr hsub.sound (Grown.trans hgrown hadded))
      (.cons (SubRead.grown hnew hread.sound hadded) .nil)

include hs hidx hlevel in
/-- The subgraphs of a dump are read when the messages of all name nothing but their nodes. -/
theorem decodeNodes_subgraphs (attrs : NodeId → List (String × Int)) (depth : Nat) (nodeMap : OrderedMap String NodeId)
    (protos : List (NodeProto GraphProto))
    (xs : List GraphId) : ∀ {l : List GraphId} {v : Heap}, (∀ x ∈ xs, (∀ n ∈ (h.graph x).nodes, n < h.nodeCount) ∧
      ((h.graph x).nodes.map (Node.getName h)).Nodup) → SubsRead h t v g l → g < v.graphCount →
    ((∀ x ∈ xs, h.Decodable attrs x) → ∃ w, decodeNodes (decodeGraph (depth + 1)) g (xs.map (encodeSubgraph attrs level h)) nodeMap
      protos v = some (some (nodeMap, protos), w) ∧ SubsRead h t w g (l ++ xs)) ∧
    ∀ r w, decodeNodes (decodeGraph (depth + 1)) g (xs.map (encodeSubgraph attrs level h)) nodeMap protos v = some (some r, w) →
      ∀ x ∈ xs, h.Decodable attrs x := by
  induction xs with
  | nil => exact fun _ hsub _ => ⟨fun _ => ⟨_, rfl, by rwa [append_nil]⟩, fun _ _ _ x hx => absurd hx not_mem_nil⟩
  | cons x xs ih =>
    intro l v hxs hsub hg
    obtain ⟨hmade, hnames⟩ := hxs x mem_cons_self
    obtain ⟨hdo, hback⟩ := decodeGraph_plain hs hidx hlevel attrs hmade hnames hsub.sound depth
    have hstep : ∀ w, decodeGraph (depth + 1) (encodeGraph attrs level h x []) v = some (some v.graphCount, w) →
        decodeNodes (decodeGraph (depth + 1)) g ((x :: xs).map (encodeSubgraph attrs level h)) nodeMap protos v =
          decodeNodes (decodeGraph (depth + 1)) g (xs.map (encodeSubgraph attrs level h)) nodeMap protos
            (subGraphAdded w g v.graphCount) := by
      intro w hw
      rw [map_cons, decodeNodes, if_pos (show (encodeSubgraph attrs level h x).opType = nodeTypeForSubgraph from rfl)]
      show ((decodeGraph (depth + 1) (encodeGraph attrs level h x []) >>= _) v) = _
      rw [bind_of_eq hw]
      dsimp only
      rw [bind_of_eq (addSubGraph_eq w (Nat.ne_of_lt hg).symm)]
    have hnext : ∀ w, GraphRead h v w x → _ := fun w hw =>
      ih (fun y hy => hxs y (mem_cons_of_mem x hy)) (SubsRead.next hsub hg hw)
        (show g < w.graphCount from Nat.lt_of_lt_of_le hg hw.grown.graphCount)
    constructor
    · intro hall
      obtain ⟨w, hw, hread⟩ := hdo (hall x mem_cons_self)
      obtain ⟨w', hw', hsub'⟩ := (hnext w hread).1 fun y hy => hall y (mem_cons_of_mem x hy)
      exact ⟨w', (hstep w hw).trans hw', by rwa [append_assoc] at hsub'⟩
    · intro r w' hr
      have hfirst : ∃ y w, decodeGraph (depth + 1) (encodeGraph attrs level h x []) v = some (some y, w) := by
        rw [map_cons, decodeNodes, if_pos (show (encodeSubgraph attrs level h x).opType = nodeTypeForSubgraph from rfl)] at hr
        have hr : ((decodeGraph (depth + 1) (encodeGraph attrs level h x []) >>= _) v) = _ := hr
        obtain ⟨y, w, hw, hr⟩ := bind_eq_some.mp hr
        cases y with
        | none => simp at hr
        | some y => exact ⟨y, w, hw⟩
      obtain ⟨y, w, hw⟩ := hfirst
      have hd := hback y w hw
      obtain ⟨w₀, hw₀, hread⟩ := hdo hd
      rw [hstep w₀ hw₀] at hr
      exact forall_mem_cons.mpr ⟨hd, (hnext w₀ hread).2 r w' hr⟩

/-! ## Reading the model -/

/-- Finishing a graph leaves the structure of graphs of other nodes. -/
theorem structureOf_finished (hv : v.Sound) (hf : Heap.Finished g v w) (hr : SubRead h t v g x y)
    (hold : ∀ m ∈ (v.graph g).nodes, m < t.nodeCount) (hgrown : Heap.Grown g t v) : w.structureOf y = v.structureOf y := by
  have hgraph := hf.graph y hr.ne
  refine structureOf_congr hv hr.made (by rw [hgraph]) (by rw [hgraph]) (by rw [hgraph]) (fun n _ => ⟨by rw [hf.node], ?_⟩)
    (fun n _ k a _ => ⟨hf.kind a, hf.owner a, hf.idx a⟩) fun n hn b hb => hf.peers b fun m hm k hk => ?_
  · rw [Heap.desc, hf.op, hf.node, Heap.desc]
  · have hn' := hr.made.nodes n hn
    have hmold := hold m hm
    have howner := ((mem_inAnchors hv.laid hn'.1).mp hb).2.1
    have howner' := hv.laid.owner m (Nat.lt_of_lt_of_le hmold hgrown.nodeCount) k b hk
    have heq : m = n := howner'.symm.trans howner
    exact absurd (heq ▸ hmold) (Nat.not_lt.mpr (hr.fresh n hn))

include hs hidx hlevel in
/-- A model is read when the messages of all its graphs name nothing but their nodes, and then with what is written of them. -/
theorem convert_spec (attrs : NodeId → List (String × Int)) (root : GraphId)
    (hgraphs : ∀ x ∈ root :: (h.graph root).subGraph, (∀ n ∈ (h.graph x).nodes, n < h.nodeCount) ∧
      ((h.graph x).nodes.map (Node.getName h)).Nodup) (hu : u.Sound) :
    ((∀ x ∈ root :: (h.graph root).subGraph, h.Decodable attrs x) → ∃ w,
      convertModelProtoToGeModel (convertGeModelToModelProto attrs level h root) u = some (some u.graphCount, w) ∧
        w.structureOf u.graphCount = readStructure h root ∧
        (w.graph u.graphCount).subGraph.map w.structureOf = (h.graph root).subGraph.map (readStructure h)) ∧
    ∀ r w, convertModelProtoToGeModel (convertGeModelToModelProto attrs level h root) u = some (some r, w) →
      ∀ x ∈ root :: (h.graph root).subGraph, h.Decodable attrs x := by
  obtain ⟨hmade, hnames⟩ := hgraphs root mem_cons_self
  obtain ⟨nodeMap, t, hread, hrun⟩ := decodeGraph_eq attrs hlevel hu hnames (9 + 1)
    ((h.graph root).subGraph.map (encodeSubgraph attrs level h))
  have hnone : SubsRead h t t u.graphCount [] :=
    ⟨Grown.refl _ t, hread.unlinked.sound, rfl, rfl, rfl, by rw [hread.subGraph]; exact .nil⟩
  obtain ⟨hdo, hback⟩ := decodeNodes_subgraphs hs hidx hlevel attrs 9 nodeMap
    ((h.graph root).nodes.map (encodeNode attrs level h)) (h.graph root).subGraph
    (fun x hx => hgraphs x (mem_cons_of_mem root hx)) hnone hread.unlinked.made
  have hconvert : convertModelProtoToGeModel (convertGeModelToModelProto attrs level h root) u =
      decodeGraph (9 + 1 + 1) (encodeGraph attrs level h root
        ((h.graph root).subGraph.map (encodeSubgraph attrs level h))) u := rfl
  have hunlinked : ∀ v, SubsRead h t v u.graphCount (h.graph root).subGraph →
      h.Unlinked attrs v u.graphCount (h.graph root).nodes nodeMap :=
    fun v hv => Unlinked.grown hread.unlinked hv.sound hv.grown hv.nodes hv.inputs hv.outputs
  rw [hconvert, hrun]
  constructor
  · intro hall
    obtain ⟨v, hv, hsubs⟩ := hdo fun x hx => hall x (mem_cons_of_mem root hx)
    rw [nil_append] at hsubs
    obtain ⟨w, hw, hfinished, -, -, hsame⟩ :=
      finish_spec level hs hidx hmade (hunlinked v hsubs) (hall root mem_cons_self)
    refine ⟨w, ?_, hsame, ?_⟩
    · rw [bind_of_eq hv]
      exact hw
    · rw [hfinished.subGraph, ← forall₂_eq_eq_eq, forall₂_map_left_iff, forall₂_map_right_iff]
      refine hsubs.read.flip.imp fun y x hr => ?_
      rw [structureOf_finished hsubs.sound hfinished hr (fun m hm => ?_) hsubs.grown]
      · exact hr.same
      · rw [hsubs.nodes] at hm
        obtain ⟨n, -, hcopy⟩ := exists_of_forall₂ hread.unlinked.copied.flip hm
        exact hcopy.made
  · intro r w hr
    obtain ⟨read, v, hv, hr⟩ := bind_eq_some.mp hr
    cases read with
    | none => simp at hr
    | some read =>
      have hsubs := hback read v hv
      obtain ⟨v₀, hv₀, hsubsRead⟩ := hdo hsubs
      rw [nil_append] at hsubsRead
      obtain ⟨heq, rfl⟩ := Prod.mk.inj (Option.some.inj (hv.symm.trans hv₀))
      rw [Option.some.inj heq] at hr
      exact forall_mem_cons.mpr ⟨(decodable_of_finish hs hidx hmade (hunlinked v hsubsRead) hr).2, hsubs⟩

include hs hidx hlevel in
/-- A model is read back with the structure of its graphs when these are dumpable. -/
theorem readsBack_iff (root : GraphId) (hmade : ∀ g ∈ root :: (h.graph root).subGraph, ∀ n ∈ (h.graph g).nodes, n < h.nodeCount)
    (hnames : ∀ g ∈ root :: (h.graph root).subGraph, ((h.graph g).nodes.map (Node.getName h)).Nodup) :
    RoundTrips attrs level h root ↔ ∀ g ∈ root :: (h.graph root).subGraph, h.Dumpable attrs g := by
  have hconvert := fun (u : Heap) (hu : u.Sound) => convert_spec hs hidx hlevel attrs root
    (fun x hx => ⟨hmade x hx, hnames x hx⟩) hu
  have hiff : ∀ g ∈ root :: (h.graph root).subGraph,
    (h.Decodable attrs g ∧ readStructure h g = h.structureOf g ↔ h.Dumpable attrs g) :=
    fun g hg => dumpable_iff hs (hmade g hg)
  constructor
  · intro hround g hg
    obtain ⟨r, t, hr, hroot, hsubs⟩ := hround .empty sound_empty
    obtain ⟨hdo, hback⟩ := hconvert .empty sound_empty
    have hall := hback r t hr
    obtain ⟨w, hw, hsame, hsame'⟩ := hdo hall
    obtain ⟨heq, rfl⟩ := Prod.mk.inj (Option.some.inj (hr.symm.trans hw))
    obtain rfl := Option.some.inj heq
    refine (hiff g hg).mp ⟨hall g hg, ?_⟩
    rcases mem_cons.mp hg with rfl | hg
    · exact hsame.symm.trans hroot
    · exact map_inj_left.mp (hsame'.symm.trans hsubs) g hg
  · intro hdump u hu
    obtain ⟨w, hw, hsame, hsame'⟩ := (hconvert u hu).1 fun g hg => ((hiff g hg).mpr (hdump g hg)).1
    refine ⟨u.graphCount, w, hw, hsame.trans ((hiff root mem_cons_self).mpr (hdump root mem_cons_self)).2,
      hsame'.trans ?_⟩
    exact map_congr_left fun g hg => ((hiff g (mem_cons_of_mem root hg)).mpr (hdump g (mem_cons_of_mem root hg))).2

end

end DumpRoundTripAux

open OnnxUtils

/-- A model is read back from its dump with the structure of its graphs exactly when these are dumpable. -/
theorem roundTrips_iff_dumpable (attrs : NodeId → List (String × Int)) (level : DumpLevel) (h : Heap) (root : GraphId)
    (hs : h.Sound)
    (hidx : h.Indices32 root) (hlevel : level ≠ .dumpWithOutDesc)
    (hmade : ∀ g ∈ root :: (h.graph root).subGraph, ∀ n ∈ (h.graph g).nodes, n < h.nodeCount)
    (hnames : ∀ g ∈ root :: (h.graph root).subGraph, ((h.graph g).nodes.map (Node.getName h)).Nodup) :
    RoundTrips attrs level h root ↔ ∀ g ∈ root :: (h.graph root).subGraph, h.Dumpable attrs g :=
  DumpRoundTripAux.readsBack_iff hs (fun a ha => (hidx.anchor a ha).2) hlevel root hmade hnames

namespace DumpRoundTripWitness

open SavedLoadsWitness

theorem dumpable_running : ∀ g ∈ 0 :: (running.graph 0).subGraph, running.Dumpable (fun _ => []) g := by
  intro g hg
  have hsubs : (running.graph 0).subGraph = [1] := by decide +kernel
  rw [hsubs] at hg
  rcases mem_pair.mp hg with rfl | rfl
  all_goals
    refine ⟨by decide +kernel, by decide +kernel, by decide +kernel, ?_, ?_, by decide +kernel⟩
    · unfold Heap.HasNamed
      decide +kernel
    · unfold Heap.HasNamed
      decide +kernel

/-- A node that feeds another and a graph registered beside them. -/
theorem roundTrips_running : RoundTrips (fun _ => []) .dumpAll running 0 :=
  (roundTrips_iff_dumpable (fun _ => []) .dumpAll running 0 sound_running indices_running (by decide) (by decide +kernel)
    (by decide +kernel)).mpr dumpable_running

/-- A node with two outputs. -/
def twoOutputs : List LinkCall := [.newOp { opDef := { name := "a", type := "Split" }, outputsDesc := [{}, {}] }, .newNode 0]

/-- Its second output is that of the graph. -/
def second : Heap :=
  (GraphSteps.addAll 0 ((LinkCall.runAll twoOutputs).getD .empty) [0]).setGraph 0
    { (GraphSteps.addAll 0 ((LinkCall.runAll twoOutputs).getD .empty) [0]).graph 0 with outputNodesInfo := [(0, 1)] }

/-- A graph whose output is the second of a node is read back with the first. -/
theorem dump_round_trips_false : ¬ ∀ (attrs : NodeId → List (String × Int)) (level : DumpLevel) (h : Heap) (root : GraphId),
    h.Sound →
    h.Indices32 root → level ≠ .dumpWithOutDesc →
    (∀ g ∈ root :: (h.graph root).subGraph, ∀ n ∈ (h.graph g).nodes, n < h.nodeCount) →
    (∀ g ∈ root :: (h.graph root).subGraph, ((h.graph g).nodes.map (Node.getName h)).Nodup) → RoundTrips attrs level h root := by
  intro hall
  have hs : second.Sound := sound_setGraph
    (sound_addAll 0 [0] (sound_runAll twoOutputs _ (by decide +kernel) rfl)) 0 _
  have hidx : second.Indices32 0 := by
    have hcount : second.anchorCount = 4 := by decide +kernel
    have hall : ∀ a < 4, -(2 ^ 31) ≤ (second.anchor a).idx ∧ (second.anchor a).idx < 2 ^ 31 := by decide +kernel
    exact ⟨fun a ha => hall a (hcount ▸ ha), by decide +kernel⟩
  have hmade : ∀ g ∈ 0 :: (second.graph 0).subGraph, ∀ n ∈ (second.graph g).nodes, n < second.nodeCount := by decide +kernel
  have hnames : ∀ g ∈ 0 :: (second.graph 0).subGraph, ((second.graph g).nodes.map (Node.getName second)).Nodup := by decide +kernel
  have hdump := (DumpRoundTripAux.readsBack_iff hs (fun a ha => (hidx.anchor a ha).2) (by decide) 0 hmade hnames).mp
    (hall (fun _ => []) .dumpAll second 0 hs hidx (by decide) hmade hnames) 0 mem_cons_self
  have hout : ∃ e ∈ (second.graph 0).outputNodesInfo, e.2 ≠ 0 := by decide +kernel
  obtain ⟨e, he, hne⟩ := hout
  exact hne (hdump.outputs e he).2

end DumpRoundTripWitness

end Metadef
