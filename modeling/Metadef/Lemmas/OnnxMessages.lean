import Metadef.Lemmas.OnnxDecoding

/-!
# Messages that are read

Which messages of graphs are read, told from the messages alone: the nodes of one name are known by the first of them, each link that is
asked for finds its ends among these, and no data input is asked for twice. What is read lies in what was made on the way, and the
links of a node are those into the first node of its name.
-/

namespace Metadef

open List Option

namespace OnnxUtils

open ModelSerializeImp (readInputs)

/-! ## Messages -/

/-- The graph an attribute holds, an empty one where it holds none. -/
def heldGraph (attr : AttributeProto GraphProto) : GraphProto := attr.g.getD (.mk "" [] [] [])

/-- The messages of nodes. -/
def opProtos (node : List (NodeProto GraphProto)) : List (NodeProto GraphProto) :=
  node.filter fun p => p.opType ≠ nodeTypeForSubgraph

/-- The graph a message among those of nodes holds by its first attribute. -/
def subProto (p : NodeProto GraphProto) : Option GraphProto :=
  if p.opType = nodeTypeForSubgraph then p.attributes.head?.map heldGraph else none

/-- The messages of graphs among those of nodes. -/
def subProtos (node : List (NodeProto GraphProto)) : List GraphProto := node.filterMap subProto

/-- How many descriptors attributes count. -/
def countedBy (key : String) (p : NodeProto GraphProto) : Nat := OnnxNodesAux.counted key p.attributes

/-- The first message of a name. -/
def named (ps : List (NodeProto GraphProto)) (s : String) : Option (NodeProto GraphProto) := ps.find? fun p => p.name = s

/-- The links messages ask for, whatever nodes they become. -/
def linkAsks (ps : List (NodeProto GraphProto)) : List NodeNameNodeReq := ps.flatMap fun p => readInputs 0 p.name p.input 0

/-- Each link asked for has a source, a data link one with the output and an input to lead to, and no data input is asked for twice. A
name stands for the first message of that name. -/
structure Linkable (ps : List (NodeProto GraphProto)) : Prop where
  found : ∀ item ∈ linkAsks ps, ∃ q, named ps item.srcNodeName = some q ∧ (0 ≤ item.srcOutIndex →
    item.srcOutIndex < countedBy "output_desc_nums" q ∧
      ∃ p, named ps item.dstNodeName = some p ∧ item.dstInIndex < countedBy "input_desc_nums" p)
  once : (linkAsks ps).Pairwise fun a b => 0 ≤ a.srcOutIndex → 0 ≤ b.srcOutIndex → a.dstNodeName = b.dstNodeName →
    a.dstInIndex ≠ b.dstInIndex

/-- A message that is read: one of a graph has an attribute with a graph that is read, one of a node a type behind a colon. -/
def NodeDecodes (decodes : GraphProto → Prop) (p : NodeProto GraphProto) : Prop :=
  if p.opType = nodeTypeForSubgraph then
    ∃ attr, p.attributes.head? = some attr ∧ attr.type = .graph ∧ decodes (heldGraph attr)
  else (afterColon p.opType).isSome

/-- The message of a graph that is read, the first argument how deep reading may go. -/
def Decodes : Nat → GraphProto → Prop
  | 0, _ => False
  | depth + 1, .mk _ input output node => (∀ p ∈ node, NodeDecodes (Decodes depth) p) ∧ Linkable (opProtos node) ∧
    (∀ s ∈ input, (named (opProtos node) s).isSome) ∧ ∀ s ∈ output, (named (opProtos node) s).isSome

/-- The messages are gone through up to one that is not read, and those of graphs have the attribute that is asked for. -/
def NodesThere (decodes there : GraphProto → Prop) : List (NodeProto GraphProto) → Prop
  | [] => True
  | p :: l => (p.opType = nodeTypeForSubgraph →
      ∃ attr, p.attributes.head? = some attr ∧ (attr.type = .graph → there (heldGraph attr))) ∧
    (NodeDecodes decodes p → NodesThere decodes there l)

/-- No message of a graph without an attribute is reached. -/
def AttributesThere : Nat → GraphProto → Prop
  | 0, _ => True
  | depth + 1, .mk _ _ _ node => NodesThere (Decodes depth) (AttributesThere depth) node

/-- No message with an input that asks for a link has the name of one before it. -/
def NamesLead : Nat → GraphProto → Prop
  | 0, _ => True
  | depth + 1, .mk _ _ _ node => ((opProtos node).Pairwise fun q p => q.name = p.name →
    ∀ s ∈ p.input, parseNameIndex s = none) ∧ ∀ m ∈ subProtos node, NamesLead depth m

/-! ## What was read -/

/-- The first node of a name. -/
def firstNamed (pairs : ReadPairs) (s : String) : Option NodeId := (pairs.find? fun e => e.1.name = s).map Prod.snd

/-- The links the inputs of messages ask for, each into the first node of the name. -/
def firstAsks (pairs : ReadPairs) : List NodeNameNodeReq := asks (pairs.map fun e => (e.1, (firstNamed pairs e.1.name).getD 0))

end OnnxUtils

open OnnxUtils

namespace Heap

variable (h : Heap)

/-- The output a request names, none where there is no such node or it has no such output. -/
def sourceOf (find : String → Option NodeId) (item : NodeNameNodeReq) : Option AnchorId :=
  (find item.srcNodeName).bind fun src =>
    if 0 ≤ item.srcOutIndex then Node.getOutDataAnchor h src item.srcOutIndex else some (h.node src).outControlAnchor

/-- The input a request leads to. -/
def inputOf (item : NodeNameNodeReq) : Option AnchorId :=
  if 0 ≤ item.srcOutIndex then Node.getInDataAnchor h item.dstNode item.dstInIndex
  else some (h.node item.dstNode).inControlAnchor

/-- The edge a request stands for. -/
def edgeOf (find : String → Option NodeId) (item : NodeNameNodeReq) : Option (AnchorId × AnchorId) :=
  (h.sourceOf find item).bind fun a => (h.inputOf item).map fun b => (a, b)

/-- A node that was read between two moments. -/
structure ProtoRead (lo hi t : Heap) (p : NodeProto GraphProto) (n : NodeId) : Prop where
  made : n < hi.nodeCount
  op : (t.node n).op < hi.opCount
  anchors : ∀ k, ∀ a ∈ t.anchorsOf n k, lo.anchorCount ≤ a ∧ a < hi.anchorCount
  name : Node.getName t n = p.name
  inputs : (t.node n).inDataAnchors.length = countedBy "input_desc_nums" p
  outputs : (t.node n).outDataAnchors.length = countedBy "output_desc_nums" p

/-- Every link that was asked for into the first node of a name is there, and no other. -/
structure FirstLinked (t : Heap) (pairs : ReadPairs) : Prop where
  found : ∀ item ∈ firstAsks pairs, (t.edgeOf (firstNamed pairs) item).isSome
  peers : ∀ e ∈ pairs, ∀ b ∈ t.inAnchors e.2,
    t.peers b = (((firstAsks pairs).filterMap (t.edgeOf (firstNamed pairs))).filter fun d => d.2 = b).map Prod.fst

/-- A graph that was read between two moments, with the graphs among its nodes. -/
def GraphBuilt (lo hi t : Heap) : Nat → GraphProto → GraphId → Prop
  | 0, _, _ => False
  | depth + 1, .mk _ _ _ node, g => (lo.graphCount ≤ g ∧ g < hi.graphCount) ∧
    List.Forall₂ (ProtoRead lo hi t) (opProtos node) (t.graph g).nodes ∧ (t.graph g).nodes.Nodup ∧
    t.FirstLinked ((opProtos node).zip (t.graph g).nodes) ∧
    List.Forall₂ (GraphBuilt lo hi t depth) (subProtos node) (t.graph g).subGraph

/-- What was made between two moments is as it was. -/
structure KeptFrom (lo hi t w : Heap) : Prop where
  op : ∀ o < hi.opCount, w.op o = t.op o
  node : ∀ n < hi.nodeCount, w.node n = t.node n
  anchor : ∀ a, lo.anchorCount ≤ a → a < hi.anchorCount → w.anchor a = t.anchor a
  graph : ∀ g, lo.graphCount ≤ g → g < hi.graphCount → w.graph g = t.graph g

end Heap

namespace OnnxMessagesAux

open Cmd OnnxNodesAux OnnxGraphsAux OnnxLinksAux OnnxDecodingAux StructureAux LinkListsAux ModelSerializeImp

variable {h t u v w lo hi : Heap} {g : GraphId} {n : NodeId} {p : NodeProto GraphProto} {ps : List (NodeProto GraphProto)}
  {ns : List NodeId} {pairs : ReadPairs} {nodeMap : OrderedMap String NodeId} {item item' : NodeNameNodeReq}

/-! ## Reading a node -/

/-- A node is read with its name, and the descriptors its attributes count. -/
theorem decodeNodeDesc_some {op : OpDesc} (hop : decodeNodeDesc p = some op) : op.getName = p.name ∧
    op.getAllInputsSize = countedBy "input_desc_nums" p ∧ op.getOutputsSize = countedBy "output_desc_nums" p := by
  obtain ⟨type, -, rfl⟩ := map_eq_some_iff.mp hop
  obtain ⟨hin, hout, hdef⟩ := addCounted_foldl p.attributes (numbered_make p.name type)
  obtain ⟨h1, -, h3, h4⟩ := decodeNodeAttribute_foldl p.attributes (p.attributes.foldl addCounted (OpDesc.make p.name type))
  refine ⟨?_, ?_, ?_⟩
  · rw [h1, OpDesc.getName, hdef]
    rfl
  · rw [OpDesc.getAllInputsSize, h3, hin]
    exact Nat.zero_add _
  · rw [OpDesc.getOutputsSize, h4, hout]
    exact Nat.zero_add _

theorem decodeNodeDesc_isSome (p : NodeProto GraphProto) : (decodeNodeDesc p).isSome = (afterColon p.opType).isSome :=
  isSome_map

/-! ## The nodes of names -/

theorem find_zip (s : String) : ∀ {ps : List (NodeProto GraphProto)} {ns : List NodeId}, ps.length = ns.length →
    ((ps.zip ns).find? fun e => e.1.name = s).map Prod.fst = named ps s := by
  intro ps
  induction ps with
  | nil => exact fun _ => rfl
  | cons p ps ih =>
    intro ns hlen
    cases ns with
    | nil => cases hlen
    | cons n ns =>
      unfold named
      rw [zip_cons_cons, find?_cons, find?_cons]
      dsimp only
      cases decide (p.name = s) with
      | true => rfl
      | false => exact ih (Nat.succ.inj hlen)

/-- A name leads to a node that was read from the first message of that name. -/
theorem firstNamed_spec (s : String) {ns : List NodeId} (hlen : ps.length = ns.length) :
    (firstNamed (ps.zip ns) s = none ∧ named ps s = none) ∨
      ∃ e ∈ ps.zip ns, firstNamed (ps.zip ns) s = some e.2 ∧ named ps s = some e.1 ∧ e.1.name = s := by
  have hnamed := find_zip s hlen
  unfold firstNamed
  cases hf : (ps.zip ns).find? fun e => e.1.name = s with
  | none =>
    rw [hf] at hnamed
    exact .inl ⟨rfl, hnamed.symm⟩
  | some e =>
    rw [hf] at hnamed
    exact .inr ⟨e, mem_of_find?_eq_some hf, rfl, hnamed.symm, by simpa using find?_some hf⟩

theorem firstNamed_append (pairs : ReadPairs) (p : NodeProto GraphProto) (n : NodeId) (s : String) :
    firstNamed (pairs ++ [(p, n)]) s = (firstNamed pairs s).or (if p.name = s then some n else none) := by
  unfold firstNamed
  rw [find?_append]
  cases pairs.find? fun e => e.1.name = s with
  | some e => rfl
  | none => by_cases hs : p.name = s <;> simp [hs]

variable {e : NodeProto GraphProto × NodeId} {s name : String}

/-- The node of a message that has the name of none before it is the one its name leads to. -/
theorem firstNamed_of_mem (he : e ∈ pairs) : (firstNamed pairs e.1.name).isSome := by
  unfold firstNamed
  rw [isSome_map, find?_isSome]
  exact ⟨e, he, by simp⟩

theorem firstNamed_mem (hn : firstNamed pairs s = some n) : ∃ e ∈ pairs, e.1.name = s ∧ e.2 = n := by
  obtain ⟨e, he, rfl⟩ := map_eq_some_iff.mp hn
  exact ⟨e, mem_of_find?_eq_some he, by simpa using find?_some he, rfl⟩

/-! ## Requests -/

theorem ends_eq (nodeMap : OrderedMap String NodeId) (h : Heap) (item : NodeNameNodeReq) :
    ends nodeMap h item = h.edgeOf nodeMap.find item := by
  unfold ends Heap.edgeOf Heap.sourceOf Heap.inputOf
  cases nodeMap.find item.srcNodeName with
  | none => rfl
  | some src => by_cases hidx : 0 ≤ item.srcOutIndex <;> simp [hidx]

/-- Requests of a list of inputs differ in the node they lead to only. -/
theorem readInputs_at (n : NodeId) (name : String) (l : List String) : ∀ i,
    readInputs n name l i = (readInputs 0 name l i).map fun item => { item with dstNode := n } := by
  induction l with
  | nil => exact fun _ => rfl
  | cons s l ih =>
    intro i
    unfold readInputs
    cases parseNodeIndex s with
    | none => exact ih (i + 1)
    | some e => rw [map_cons, ← ih]

/-- The requests of a list of inputs lead to one node of one name. -/
theorem readInputs_mem (l : List String) : ∀ i, ∀ item ∈ readInputs n name l i, item.dstNode = n ∧ item.dstNodeName = name := by
  induction l with
  | nil => exact fun _ _ hi => absurd hi not_mem_nil
  | cons s l ih =>
    intro i item hi
    unfold readInputs at hi
    cases hs : parseNodeIndex s with
    | none =>
      rw [hs] at hi
      exact ih (i + 1) item hi
    | some e =>
      rw [hs] at hi
      rcases mem_cons.mp hi with rfl | hi
      · exact ⟨rfl, rfl⟩
      · exact ih _ item hi

/-- A list of inputs asks for nothing when none of them names an output. -/
theorem readInputs_eq_nil (l : List String) : ∀ i, readInputs n name l i = [] ↔ ∀ s ∈ l, parseNameIndex s = none := by
  induction l with
  | nil => exact fun _ => by simp [readInputs]
  | cons s l ih =>
    intro i
    rw [forall_mem_cons, readInputs, show parseNameIndex s = parseNodeIndex s from rfl]
    cases parseNodeIndex s with
    | none => simpa using ih (i + 1)
    | some e => simp

/-- A request into the first node of its name. -/
def redirect (pairs : ReadPairs) (item : NodeNameNodeReq) : NodeNameNodeReq :=
  { item with dstNode := (firstNamed pairs item.dstNodeName).getD 0 }

theorem firstAsks_eq (hlen : ps.length = ns.length) : firstAsks (ps.zip ns) = (linkAsks ps).map (redirect (ps.zip ns)) := by
  have hasks : linkAsks ps = (ps.zip ns).flatMap fun e => readInputs 0 e.1.name e.1.input 0 := by
    conv_lhs => rw [← map_fst_zip (Nat.le_of_eq hlen)]
    rw [linkAsks, flatMap_map]
  rw [hasks, firstAsks, asks, flatMap_map, map_flatMap]
  refine flatMap_congr fun e _ => ?_
  rw [readInputs_at]
  refine map_congr_left fun item hi => ?_
  rw [redirect, (readInputs_mem e.1.input 0 item hi).2]

/-- The messages of a graph with the nodes that were read from them. -/
structure PairsRead (lo t : Heap) (ps : List (NodeProto GraphProto)) (ns : List NodeId) : Prop where
  sound : t.Sound
  read : List.Forall₂ (Heap.ProtoRead lo t t) ps ns
  nodup : ns.Nodup

theorem PairsRead.mem (hr : PairsRead lo t ps ns) (he : e ∈ ps.zip ns) :
    Heap.ProtoRead lo t t e.1 e.2 := (forall₂_iff_zip.mp hr.read).2 he

/-- A node stands for one message only. -/
theorem eq_of_mem_zip : ∀ {ps : List (NodeProto GraphProto)} {ns : List NodeId}, ns.Nodup →
    ∀ {e d : NodeProto GraphProto × NodeId}, e ∈ ps.zip ns → d ∈ ps.zip ns → e.2 = d.2 → e = d := by
  intro ps
  induction ps with
  | nil => exact fun _ _ _ he => absurd he not_mem_nil
  | cons p ps ih =>
    intro ns hnd e d he hd heq
    cases ns with
    | nil => exact absurd he not_mem_nil
    | cons n ns =>
      obtain ⟨hn, hnd⟩ := nodup_cons.mp hnd
      rw [zip_cons_cons, mem_cons] at he hd
      rcases he with rfl | he
      · rcases hd with rfl | hd
        · rfl
        · exact absurd (of_mem_zip hd).2 (heq ▸ hn)
      · rcases hd with rfl | hd
        · exact absurd (of_mem_zip he).2 (heq ▸ hn)
        · exact ih hnd he hd heq

/-- Names that lead to one node are one. -/
theorem firstNamed_inj (hr : PairsRead lo t ps ns) {s' : String} (hs : firstNamed (ps.zip ns) s = some n)
    (hs' : firstNamed (ps.zip ns) s' = some n) : s = s' := by
  obtain ⟨e, he, rfl, hn⟩ := firstNamed_mem hs
  obtain ⟨d, hd, rfl, hn'⟩ := firstNamed_mem hs'
  rw [eq_of_mem_zip hr.nodup he hd (hn.trans hn'.symm)]

/-! ## The ends of requests -/

theorem sourceOf_eq (item : NodeNameNodeReq) {find : String → Option NodeId} {m : NodeId} (hm : find item.srcNodeName = some m) :
    t.sourceOf find item =
      if 0 ≤ item.srcOutIndex then (t.anchorsOf m .outData)[item.srcOutIndex.toNat]? else some (t.node m).outControlAnchor := by
  rw [Heap.sourceOf, hm, bind_some]
  split
  · rename_i hidx
    exact if_neg (Int.not_lt.mpr hidx)
  · rfl

theorem inputOf_eq (t : Heap) (item : NodeNameNodeReq) : t.inputOf item =
    if 0 ≤ item.srcOutIndex then (t.anchorsOf item.dstNode .inData)[item.dstInIndex]? else
      some (t.node item.dstNode).inControlAnchor := by
  unfold Heap.inputOf
  split
  · rw [Node.getInDataAnchor, if_neg (by omega), Int.toNat_natCast]
    rfl
  · rfl

/-- An edge that is found is from an output of a node that was read to an input of its node, of the kind and index asked for. -/
theorem edgeOf_some (hr : PairsRead lo t ps ns) (hdst : item.dstNode < t.nodeCount) {a b : AnchorId}
    (he : t.edgeOf (firstNamed (ps.zip ns)) item = some (a, b)) :
    (t.Held a ∧ t.owner a ∈ ns ∧ (t.kind a).isIn = false) ∧ b ∈ t.inAnchors item.dstNode ∧
      (if 0 ≤ item.srcOutIndex then t.kind b = .inData ∧ (t.anchor b).idx = item.dstInIndex else t.kind b = .inControl) := by
  obtain ⟨a', ha, he⟩ := bind_eq_some_iff.mp he
  obtain ⟨b', hb, he⟩ := map_eq_some_iff.mp he
  obtain ⟨rfl, rfl⟩ := Prod.mk.inj he
  obtain ⟨m, hm, -⟩ := bind_eq_some_iff.mp ha
  obtain ⟨e, hmem, -, rfl⟩ := firstNamed_mem hm
  have hmade := (hr.mem hmem).made
  rw [sourceOf_eq item hm] at ha
  rw [inputOf_eq] at hb
  have hout : ∀ k, k.isIn = false → a' ∈ t.anchorsOf e.2 k → t.Held a' ∧ t.owner a' ∈ ns ∧ (t.kind a').isIn = false := by
    intro k hk hak
    rw [hr.sound.laid.owner e.2 hmade k a' hak, hr.sound.laid.kind e.2 hmade k a' hak]
    exact ⟨hr.sound.laid.held hmade hak, (of_mem_zip hmem).2, hk⟩
  by_cases hidx : 0 ≤ item.srcOutIndex
  · rw [if_pos hidx] at ha hb ⊢
    have hbmem := mem_of_getElem? hb
    exact ⟨hout .outData rfl (mem_of_getElem? ha), mem_append_left _ hbmem, hr.sound.laid.kind _ hdst _ _ hbmem,
      hr.sound.laid.idx _ hdst .inData rfl _ _ hb⟩
  · rw [if_neg hidx] at ha hb ⊢
    have hbmem : b' ∈ t.anchorsOf item.dstNode .inControl := mem_singleton.mpr (Option.some.inj hb).symm
    exact ⟨hout .outControl rfl (mem_singleton.mpr (Option.some.inj ha).symm), mem_append_right _ hbmem,
      hr.sound.laid.kind _ hdst _ _ hbmem⟩

/-- The node of a request of a message. -/
theorem redirect_dst (hr : PairsRead lo t ps ns) (hi : item ∈ linkAsks ps) :
    ∃ e ∈ ps.zip ns, firstNamed (ps.zip ns) item.dstNodeName = some e.2 ∧ named ps item.dstNodeName = some e.1 ∧
      (redirect (ps.zip ns) item).dstNode = e.2 := by
  obtain ⟨p, hp, hi⟩ := mem_flatMap.mp hi
  have hname := (readInputs_mem p.input 0 item hi).2
  rcases firstNamed_spec item.dstNodeName hr.read.length_eq with ⟨-, hnone⟩ | ⟨e, he, hfirst, hnamed, -⟩
  · exact absurd hname.symm (by simpa using find?_eq_none.mp hnone p hp)
  · exact ⟨e, he, hfirst, hnamed, by rw [redirect, hfirst]; rfl⟩

/-- A request finds its ends when the messages have them. -/
theorem edgeOf_isSome (hr : PairsRead lo t ps ns) (hi : item ∈ linkAsks ps) :
    (t.edgeOf (firstNamed (ps.zip ns)) (redirect (ps.zip ns) item)).isSome ↔ ∃ q, named ps item.srcNodeName = some q ∧
      (0 ≤ item.srcOutIndex → item.srcOutIndex < countedBy "output_desc_nums" q ∧
        ∃ p, named ps item.dstNodeName = some p ∧ item.dstInIndex < countedBy "input_desc_nums" p) := by
  obtain ⟨d, hd, -, hnamed, hdst⟩ := redirect_dst hr hi
  have hinputs : (t.anchorsOf d.2 .inData).length = countedBy "input_desc_nums" d.1 := (hr.mem hd).inputs
  rcases firstNamed_spec item.srcNodeName hr.read.length_eq with ⟨hnone, hnoneP⟩ | ⟨e, he, hfirst, hnamedP, -⟩
  · rw [hnoneP, Heap.edgeOf, Heap.sourceOf, show (redirect (ps.zip ns) item).srcNodeName = item.srcNodeName from rfl, hnone]
    simp
  · have houtputs : (t.anchorsOf e.2 .outData).length = countedBy "output_desc_nums" e.1 := (hr.mem he).outputs
    rw [hnamedP, hnamed, Heap.edgeOf, sourceOf_eq (redirect (ps.zip ns) item) hfirst, inputOf_eq, hdst]
    show ((if 0 ≤ item.srcOutIndex then (t.anchorsOf e.2 .outData)[item.srcOutIndex.toNat]? else _).bind _).isSome ↔ _
    by_cases hidx : 0 ≤ item.srcOutIndex
    · rw [if_pos hidx, if_pos (show 0 ≤ (redirect (ps.zip ns) item).srcOutIndex from hidx)]
      show (((t.anchorsOf e.2 .outData)[item.srcOutIndex.toNat]?).bind fun a =>
        ((t.anchorsOf d.2 .inData)[item.dstInIndex]?).map fun b => (a, b)).isSome ↔ _
      by_cases hlt : item.srcOutIndex.toNat < (t.anchorsOf e.2 .outData).length
      · rw [getElem?_eq_getElem hlt, bind_some, isSome_map, isSome_getElem?]
        rw [houtputs] at hlt
        simp [hidx, hinputs]
        omega
      · rw [getElem?_eq_none (Nat.le_of_not_lt hlt)]
        rw [houtputs] at hlt
        simp [hidx]
        omega
    · rw [if_neg hidx, if_neg (show ¬0 ≤ (redirect (ps.zip ns) item).srcOutIndex from hidx)]
      simp [hidx]

/-- Two requests lead to different inputs when they ask for different ones. -/
theorem edgeOf_apart (hr : PairsRead lo t ps ns) (hi : item ∈ linkAsks ps) (hi' : item' ∈ linkAsks ps)
    (hfound : (t.edgeOf (firstNamed (ps.zip ns)) (redirect (ps.zip ns) item)).isSome)
    (hfound' : (t.edgeOf (firstNamed (ps.zip ns)) (redirect (ps.zip ns) item')).isSome) :
    (0 ≤ item'.srcOutIndex → ∀ e d, t.edgeOf (firstNamed (ps.zip ns)) (redirect (ps.zip ns) item) = some e →
      t.edgeOf (firstNamed (ps.zip ns)) (redirect (ps.zip ns) item') = some d → d.2 ≠ e.2) ↔
    (0 ≤ item.srcOutIndex → 0 ≤ item'.srcOutIndex → item.dstNodeName = item'.dstNodeName →
      item.dstInIndex ≠ item'.dstInIndex) := by
  obtain ⟨d, hd, hfirst, -, hdst⟩ := redirect_dst hr hi
  obtain ⟨d', hd', hfirst', -, hdst'⟩ := redirect_dst hr hi'
  have hmade : (redirect (ps.zip ns) item).dstNode < t.nodeCount := hdst ▸ (hr.mem hd).made
  have hmade' : (redirect (ps.zip ns) item').dstNode < t.nodeCount := hdst' ▸ (hr.mem hd').made
  obtain ⟨⟨a, b⟩, he⟩ := isSome_iff_exists.mp hfound
  obtain ⟨⟨a', b'⟩, he'⟩ := isSome_iff_exists.mp hfound'
  rw [he, he']
  obtain ⟨-, hb, hkind⟩ := edgeOf_some hr hmade he
  obtain ⟨-, hb', hkind'⟩ := edgeOf_some hr hmade' he'
  have howner := ((Heap.mem_inAnchors hr.sound.laid hmade).mp hb).2.1
  have howner' := ((Heap.mem_inAnchors hr.sound.laid hmade').mp hb').2.1
  constructor
  · intro hne hidx hidx' hname hin
    refine hne hidx' _ _ rfl rfl ?_
    -- both are the input of one node at one index
    have hinput : t.inputOf (redirect (ps.zip ns) item) = t.inputOf (redirect (ps.zip ns) item') := by
      rw [inputOf_eq, inputOf_eq, if_pos (show 0 ≤ (redirect (ps.zip ns) item).srcOutIndex from hidx),
        if_pos (show 0 ≤ (redirect (ps.zip ns) item').srcOutIndex from hidx')]
      rw [show (redirect (ps.zip ns) item).dstNode = (redirect (ps.zip ns) item').dstNode from
        congrArg (fun s => (firstNamed (ps.zip ns) s).getD 0) hname]
      rw [show (redirect (ps.zip ns) item).dstInIndex = (redirect (ps.zip ns) item').dstInIndex from hin]
    obtain ⟨_, -, he⟩ := bind_eq_some_iff.mp he
    obtain ⟨_, hx, he⟩ := map_eq_some_iff.mp he
    obtain ⟨_, -, he'⟩ := bind_eq_some_iff.mp he'
    obtain ⟨_, hx', he'⟩ := map_eq_some_iff.mp he'
    obtain ⟨-, rfl⟩ := Prod.mk.inj he
    obtain ⟨-, rfl⟩ := Prod.mk.inj he'
    exact Option.some.inj (hx'.symm.trans (hinput ▸ hx))
  · intro hne hidx' e x hxe hxd heq
    obtain rfl := Option.some.inj hxe
    obtain rfl := Option.some.inj hxd
    dsimp only at heq
    rw [if_pos (show 0 ≤ (redirect (ps.zip ns) item').srcOutIndex from hidx')] at hkind'
    by_cases hidx : 0 ≤ item.srcOutIndex
    · rw [if_pos (show 0 ≤ (redirect (ps.zip ns) item).srcOutIndex from hidx)] at hkind
      have hnode : d.2 = d'.2 := by rw [← hdst, ← hdst', ← howner, ← howner', heq]
      refine hne hidx hidx' (firstNamed_inj hr hfirst (hnode ▸ hfirst')) ?_
      have hsame := hkind.2.symm.trans (heq ▸ hkind'.2)
      exact_mod_cast hsame
    · rw [if_neg (show ¬0 ≤ (redirect (ps.zip ns) item).srcOutIndex from hidx)] at hkind
      rw [heq, hkind] at hkind'
      cases hkind'.1

/-- The messages can be linked when every request finds its ends, and no data input is linked twice. -/
theorem linkable_iff (hr : PairsRead lo t ps ns) : Linkable ps ↔
    (∀ item ∈ firstAsks (ps.zip ns), (t.edgeOf (firstNamed (ps.zip ns)) item).isSome) ∧
      (firstAsks (ps.zip ns)).Pairwise fun a b => 0 ≤ b.srcOutIndex → ∀ e d, t.edgeOf (firstNamed (ps.zip ns)) a = some e →
        t.edgeOf (firstNamed (ps.zip ns)) b = some d → d.2 ≠ e.2 := by
  rw [firstAsks_eq hr.read.length_eq, List.forall_mem_map, pairwise_map]
  constructor
  · rintro ⟨hfound, honce⟩
    have hall : ∀ item ∈ linkAsks ps, (t.edgeOf (firstNamed (ps.zip ns)) (redirect (ps.zip ns) item)).isSome :=
      fun item hi => (edgeOf_isSome hr hi).mpr (hfound item hi)
    exact ⟨hall, honce.imp_of_mem fun {a b} ha hb hne => (edgeOf_apart hr ha hb (hall a ha) (hall b hb)).mpr hne⟩
  · rintro ⟨hall, hpair⟩
    exact ⟨fun item hi => (edgeOf_isSome hr hi).mp (hall item hi),
      hpair.imp_of_mem fun {a b} ha hb hne => (edgeOf_apart hr ha hb (hall a ha) (hall b hb)).mp hne⟩

end OnnxMessagesAux

end Metadef
