import Metadef.Lemmas.OnnxGraphs

/-!
# Links read from a dump

Where the nodes of a graph are read and none has a link, the links they are written with are made exactly when the graph has their
sources, with as many outputs, and the nodes have as many inputs.
-/

namespace Metadef

open List Option Heap

/-- The nodes of a graph are read, known by name, and without links. -/
structure Heap.Unlinked (attrs : NodeId → List (String × Int)) (h t : Heap) (g : GraphId) (nodes : List NodeId)
    (nodeMap : OrderedMap String NodeId) : Prop where
  sound : t.Sound
  made : g < t.graphCount
  copied : List.Forall₂ (h.NodeCopied attrs t) nodes (t.graph g).nodes
  nodup : (t.graph g).nodes.Nodup
  found : ∀ e ∈ nodes.zip (t.graph g).nodes, nodeMap.find (Node.getName h e.1) = some e.2
  known : ∀ s n, nodeMap.find s = some n → ∃ e ∈ nodes.zip (t.graph g).nodes, Node.getName h e.1 = s ∧ e.2 = n
  free : ∀ n ∈ (t.graph g).nodes, ∀ b ∈ t.inAnchors n, t.peers b = []
  inputs : (t.graph g).inputNodes = []
  outputs : (t.graph g).outputNodesInfo = []

/-- The links the nodes of a graph are written with are of nodes whose names it has, and their indices are of descriptors the nodes are
read back with. -/
def Heap.LinksFound (attrs : NodeId → List (String × Int)) (h : Heap) (nodes : List NodeId) : Prop :=
  ∀ n ∈ nodes, ∀ e ∈ h.writtenLinks n, ∃ m ∈ nodes, Node.getName h m = Node.getName h (h.owner e.1) ∧
    (h.kind e.1 = .outData → (h.anchor e.1).idx < OnnxUtils.outputsRead attrs h m ∧
      (h.anchor e.2).idx < OnnxUtils.inputsRead attrs h n)

namespace OnnxUtils

/-- Messages with the nodes they became. -/
abbrev ReadPairs := List (NodeProto GraphProto × NodeId)

/-- The links the inputs of messages ask for, each into its node. -/
def asks (pairs : ReadPairs) : List NodeNameNodeReq :=
  pairs.flatMap fun e => ModelSerializeImp.readInputs e.2 e.1.name e.1.input 0

end OnnxUtils

namespace OnnxLinksAux

open Cmd OnnxUtils OnnxGraphsAux StructureAux WrittenLinksAux LinkListsAux ModelSerializeImp

variable {attrs : NodeId → List (String × Int)} {level : DumpLevel} {h t : Heap} {g : GraphId} {n n' : NodeId}
  {nodes : List NodeId} {nodeMap : OrderedMap String NodeId} {item : NodeNameNodeReq} {d e : AnchorId × AnchorId}

/-! ## Meeting requests -/

/-- Meeting one request. -/
def meet (nodeMap : OrderedMap String NodeId) (item : NodeNameNodeReq) : Cmd Heap Bool := do
  let some src := nodeMap.find item.srcNodeName | return false
  decodeNodeLinkImp item src

theorem link_eq (this other : AnchorId) (free : Heap → AnchorId → Bool) (h : Heap) :
    Anchor.link this (some other) free h = some (if free h other then (true, Anchor.linked h this other) else (false, h)) := by
  simp only [Anchor.link, get_bind_apply]
  cases free h other <;> rfl

/-- A request fails where it finds no anchors, and where it finds a link at a data input. -/
theorem meet_cases (nodeMap : OrderedMap String NodeId) (h : Heap) (item : NodeNameNodeReq) :
    (ends nodeMap h item = none ∧ meet nodeMap item h = some (false, h)) ∨
      ∃ e, ends nodeMap h item = some e ∧ meet nodeMap item h =
        some (if 0 ≤ item.srcOutIndex → (h.peers e.2).isEmpty then (true, Anchor.linked h e.1 e.2) else (false, h)) := by
  unfold ends meet decodeNodeLinkImp
  cases nodeMap.find item.srcNodeName with
  | none => exact .inl ⟨rfl, rfl⟩
  | some src =>
    simp only [get_bind_apply, bind_some]
    by_cases hidx : 0 ≤ item.srcOutIndex
    · rw [if_pos hidx, if_pos hidx]
      cases Node.getOutDataAnchor h src item.srcOutIndex with
      | none => exact .inl ⟨rfl, rfl⟩
      | some a =>
        cases Node.getInDataAnchor h item.dstNode item.dstInIndex with
        | none => exact .inl ⟨rfl, rfl⟩
        | some b =>
          refine .inr ⟨(a, b), rfl, ?_⟩
          refine (link_eq a b _ h).trans ?_
          simp [hidx]
    · rw [if_neg hidx, if_neg hidx]
      refine .inr ⟨_, rfl, ?_⟩
      refine (link_eq _ _ _ h).trans ?_
      simp [hidx]

theorem meets_meet (nodeMap : OrderedMap String NodeId) : Meets nodeMap (meet nodeMap) := by
  refine ⟨fun h item hn => ?_, fun h item e he hfree => ?_, fun h item ok t ht => ?_⟩
  · rcases meet_cases nodeMap h item with ⟨-, hr⟩ | ⟨e, he, -⟩
    · exact hr
    · rw [hn] at he
      cases he
  · rcases meet_cases nodeMap h item with ⟨hn, -⟩ | ⟨d, hd, hr⟩
    · rw [hn] at he
      cases he
    · obtain rfl := Option.some.inj (hd.symm.trans he)
      rw [hr, if_pos fun hi => by rw [hfree hi]; rfl]
  · rcases meet_cases nodeMap h item with ⟨-, hr⟩ | ⟨e, -, hr⟩
    · rw [hr] at ht
      rw [(Prod.mk.inj (Option.some.inj ht)).2]
    · rw [hr] at ht
      split at ht
      · rw [← (Prod.mk.inj (Option.some.inj ht)).2]
        rfl
      · rw [(Prod.mk.inj (Option.some.inj ht)).2]

/-- Reading the inputs of a node meets the requests they stand for. -/
theorem decodeInputs_eq (n : NodeId) (name : String) (l : List String) : ∀ i s,
    decodeInputs nodeMap n name l i s = Cmd.eachOk (meet nodeMap) (readInputs n name l i) s := by
  induction l with
  | nil => exact fun _ _ => rfl
  | cons input l ih =>
    intro i s
    unfold decodeInputs readInputs
    rw [show parseNameIndex input = parseNodeIndex input from rfl]
    cases parseNodeIndex input with
    | none => exact ih (i + 1) s
    | some p =>
      obtain ⟨src, index⟩ := p
      dsimp only
      rw [Cmd.eachOk, meet]
      dsimp only
      cases nodeMap.find src with
      | none => rfl
      | some m =>
        dsimp only
        refine congrFun (congrArg (decodeNodeLinkImp _ m >>= ·) (funext fun ok => ?_)) s
        cases ok with
        | false => rfl
        | true => exact funext (ih _)

/-- Reading the links of messages meets the requests of their inputs, each into the node its name leads to. -/
theorem decodeNodeLink_asks : ∀ {pairs : ReadPairs}, (∀ e ∈ pairs, nodeMap.find e.1.name = some e.2) → ∀ s : Heap,
    decodeNodeLink nodeMap (pairs.map Prod.fst) s = Cmd.eachOk (meet nodeMap) (asks pairs) s := by
  intro pairs hfound s
  unfold asks
  rw [eachOk_flatMap]
  induction pairs generalizing s with
  | nil => rfl
  | cons e pairs ih =>
    have ih := ih fun d hd => hfound d (mem_cons_of_mem e hd)
    unfold decodeNodeLink at ih ⊢
    rw [map_cons, Cmd.eachOk, Cmd.eachOk, hfound e mem_cons_self]
    dsimp only
    rw [show decodeInputs nodeMap e.2 e.1.name e.1.input 0 = Cmd.eachOk (meet nodeMap) (readInputs e.2 e.1.name e.1.input 0) from
      funext (decodeInputs_eq e.2 _ _ 0)]
    refine congrFun (congrArg (_ >>= ·) (funext fun ok => ?_)) s
    cases ok with
    | false => rfl
    | true => exact funext ih

/-- What the nodes of a graph ask for, each pair a node and its copy. -/
def requests (h : Heap) (pairs : List (NodeId × NodeId)) : List NodeNameNodeReq :=
  pairs.flatMap fun e => readInputs e.2 (Node.getName h e.1) (encodeNodeLink h e.1) 0

/-- Reading the links of a graph meets the requests of its nodes. -/
theorem decodeNodeLink_eq {pairs : List (NodeId × NodeId)} (hfound : ∀ e ∈ pairs, nodeMap.find (Node.getName h e.1) = some e.2)
    (s : Heap) : decodeNodeLink nodeMap (pairs.map fun e => encodeNode attrs level h e.1) s =
      Cmd.eachOk (meet nodeMap) (requests h pairs) s := by
  have hpairs : ∀ d ∈ pairs.map fun e => (encodeNode attrs level h e.1, e.2), nodeMap.find d.1.name = some d.2 := by
    intro d hd
    obtain ⟨e, he, rfl⟩ := List.mem_map.mp hd
    exact hfound e he
  have hread := decodeNodeLink_asks hpairs s
  rw [asks, flatMap_map, List.map_map] at hread
  exact hread

/-! ## The ends of requests -/

/-- The link a request is met by, which is named as the one that was written. -/
structure LinkCopied (h t : Heap) (g : GraphId) (n' : NodeId) (item : NodeNameNodeReq) (e d : AnchorId × AnchorId) : Prop where
  source : d.1 ∈ t.outAnchors (t.owner d.1)
  listed : t.owner d.1 ∈ (t.graph g).nodes
  dest : d.2 ∈ t.inAnchors n'
  name : t.edgeName d.1 d.2 = h.edgeName e.1 e.2
  input : 0 ≤ item.srcOutIndex → t.kind d.2 = .inData ∧ (t.anchor d.2).idx = item.dstInIndex
  control : item.srcOutIndex < 0 → t.kind d.2 = .inControl

theorem copied_of_mem (hu : h.Unlinked attrs t g nodes nodeMap) (hpair : (n, n') ∈ nodes.zip (t.graph g).nodes) :
    h.NodeCopied attrs t n n' := (forall₂_iff_zip.mp hu.copied).2 hpair

theorem ends_spec (hs : h.Sound) (hu : h.Unlinked attrs t g nodes nodeMap) (hn : n < h.nodeCount)
    (hpair : (n, n') ∈ nodes.zip (t.graph g).nodes) (hask : h.Asks n n' item e) (hd : ends nodeMap t item = some d) :
    LinkCopied h t g n' item e d := by
  have hcopy := copied_of_mem hu hpair
  obtain ⟨src, hsrc, hd⟩ := bind_eq_some_iff.mp hd
  obtain ⟨⟨m, m'⟩, hm, hname, rfl⟩ := hu.known _ _ hsrc
  have hmcopy := copied_of_mem hu hm
  dsimp only at hname hsrc hd
  have hsource : Node.getName t m' = Node.getName h (h.owner e.1) := by rw [hmcopy.name, hname, hask.source]
  rcases hask.link with ⟨hidx, hpos, hkind, hin⟩ | ⟨hidx, hkind, hin⟩
  · rw [if_pos (hidx ▸ hpos)] at hd
    obtain ⟨a, ha, hd⟩ := bind_eq_some_iff.mp hd
    obtain ⟨b, hb, rfl⟩ := map_eq_some_iff.mp hd
    rw [Node.getOutDataAnchor, if_neg (by omega)] at ha
    rw [hask.dest, Node.getInDataAnchor, if_neg (by omega), Int.toNat_natCast] at hb
    have hamem : a ∈ t.anchorsOf m' .outData := mem_of_getElem? ha
    have hbmem : b ∈ t.anchorsOf n' .inData := mem_of_getElem? hb
    have haowner := hu.sound.laid.owner m' hmcopy.made _ a hamem
    have hakind := hu.sound.laid.kind m' hmcopy.made _ a hamem
    have haidx := hu.sound.laid.idx m' hmcopy.made .outData rfl _ a ha
    have hbowner := hu.sound.laid.owner n' hcopy.made _ b hbmem
    have hbkind := hu.sound.laid.kind n' hcopy.made _ b hbmem
    have hbidx := hu.sound.laid.idx n' hcopy.made .inData rfl _ b hb
    have hemem : e.2 ∈ h.anchorsOf n .inData := mem_of_getElem? hin
    refine ⟨?_, ?_, mem_append_left _ hbmem, ?_, fun _ => ⟨hbkind, hbidx⟩, fun hneg => by omega⟩
    · rw [haowner]
      exact mem_append_left _ hamem
    · rw [haowner]
      exact (of_mem_zip hm).2
    · unfold Heap.edgeName Heap.anchorIdx
      dsimp only
      rw [haowner, hbowner, hakind, hbkind, hkind, hs.laid.kind n hn _ _ hemem, hs.laid.owner n hn _ _ hemem, hsource, hcopy.name,
        haidx, hbidx, hs.laid.idx n hn .inData rfl _ _ hin, Int.toNat_of_nonneg (hidx ▸ hpos), hidx]
  · rw [if_neg (by omega)] at hd
    obtain rfl := Option.some.inj hd
    rw [hask.dest]
    have hamem : (t.node m').outControlAnchor ∈ t.anchorsOf m' .outControl := mem_singleton.mpr rfl
    have hbmem : (t.node n').inControlAnchor ∈ t.anchorsOf n' .inControl := mem_singleton.mpr rfl
    have haowner := hu.sound.laid.owner m' hmcopy.made _ _ hamem
    have hakind := hu.sound.laid.kind m' hmcopy.made _ _ hamem
    have hbowner := hu.sound.laid.owner n' hcopy.made _ _ hbmem
    have hbkind := hu.sound.laid.kind n' hcopy.made _ _ hbmem
    have hemem : e.2 ∈ h.anchorsOf n .inControl := mem_singleton.mpr hin
    refine ⟨?_, ?_, mem_append_right _ hbmem, ?_, fun hpos => by omega, fun _ => hbkind⟩
    · rw [haowner]
      exact mem_append_right _ hamem
    · rw [haowner]
      exact (of_mem_zip hm).2
    · unfold Heap.edgeName Heap.anchorIdx
      dsimp only
      rw [haowner, hbowner, hakind, hbkind, hkind, hs.laid.kind n hn _ _ hemem, hs.laid.owner n hn _ _ hemem, hsource, hcopy.name]
      rfl

/-- A request finds its ends when the graph has its source, with as many outputs, and the node has as many inputs. -/
theorem ends_isSome (hs : h.Sound) (hu : h.Unlinked attrs t g nodes nodeMap) (hn : n < h.nodeCount)
    (hpair : (n, n') ∈ nodes.zip (t.graph g).nodes) (hask : h.Asks n n' item e) :
    (ends nodeMap t item).isSome ↔ ∃ m ∈ nodes, Node.getName h m = Node.getName h (h.owner e.1) ∧
      (h.kind e.1 = .outData → (h.anchor e.1).idx < outputsRead attrs h m ∧ (h.anchor e.2).idx < inputsRead attrs h n) := by
  have hcopy := copied_of_mem hu hpair
  have hlen := hu.copied.length_eq
  -- the source of a name is the copy of the node of that name
  have hfind : ∀ m ∈ nodes, Node.getName h m = Node.getName h (h.owner e.1) →
      ∃ m', (m, m') ∈ nodes.zip (t.graph g).nodes ∧ nodeMap.find item.srcNodeName = some m' := by
    intro m hm hname
    obtain ⟨i, hi, rfl⟩ := mem_iff_getElem.mp hm
    have hi' : i < (t.graph g).nodes.length := hlen ▸ hi
    have hmem : (nodes[i], (t.graph g).nodes[i]) ∈ nodes.zip (t.graph g).nodes :=
      mem_iff_getElem.mpr ⟨i, by simp [hi, hi'], getElem_zip⟩
    exact ⟨_, hmem, by rw [hask.source, ← hname]; exact hu.found _ hmem⟩
  have hback : ∀ m', nodeMap.find item.srcNodeName = some m' →
      ∃ m ∈ nodes, Node.getName h m = Node.getName h (h.owner e.1) ∧ h.NodeCopied attrs t m m' := by
    intro m' hm'
    obtain ⟨⟨m, x⟩, hm, hname, rfl⟩ := hu.known _ _ hm'
    exact ⟨m, (of_mem_zip hm).1, hname.trans hask.source, copied_of_mem hu hm⟩
  rcases hask.link with ⟨hidx, hpos, hkind, hin⟩ | ⟨hidx, hkind, hin⟩
  · have hdest := hs.laid.idx n hn .inData rfl _ _ hin
    have hends : ∀ m', nodeMap.find item.srcNodeName = some m' → ((ends nodeMap t item).isSome ↔
        item.srcOutIndex < (t.node m').outDataAnchors.length ∧ item.dstInIndex < (t.node n').inDataAnchors.length) := by
      intro m' hm'
      have hout : Node.getOutDataAnchor t m' item.srcOutIndex = (t.node m').outDataAnchors[item.srcOutIndex.toNat]? :=
        if_neg (by omega)
      have hins : Node.getInDataAnchor t n' item.dstInIndex = (t.node n').inDataAnchors[item.dstInIndex]? := by
        rw [Node.getInDataAnchor, if_neg (by omega), Int.toNat_natCast]
      unfold ends
      rw [hm', bind_some, if_pos (hidx ▸ hpos), hask.dest, hout, hins]
      by_cases hlt : item.srcOutIndex.toNat < (t.node m').outDataAnchors.length
      · rw [getElem?_eq_getElem hlt]
        simp
        omega
      · rw [getElem?_eq_none (Nat.le_of_not_lt hlt)]
        simp
        omega
    constructor
    · intro hsome
      obtain ⟨d, hd⟩ := isSome_iff_exists.mp hsome
      obtain ⟨m', hm', -⟩ := bind_eq_some_iff.mp hd
      obtain ⟨m, hm, hname, hmcopy⟩ := hback m' hm'
      obtain ⟨h1, h2⟩ := (hends m' hm').mp hsome
      refine ⟨m, hm, hname, fun _ => ⟨?_, ?_⟩⟩
      · rw [← hmcopy.outputs, ← hidx]
        exact h1
      · rw [hdest, ← hcopy.inputs]
        exact_mod_cast h2
    · rintro ⟨m, hm, hname, hbounds⟩
      obtain ⟨m', hpair', hm'⟩ := hfind m hm hname
      obtain ⟨h1, h2⟩ := hbounds hkind
      refine (hends m' hm').mpr ⟨?_, ?_⟩
      · rw [(copied_of_mem hu hpair').outputs, hidx]
        exact h1
      · rw [hdest] at h2
        rw [hcopy.inputs]
        exact_mod_cast h2
  · constructor
    · intro hsome
      obtain ⟨d, hd⟩ := isSome_iff_exists.mp hsome
      obtain ⟨m', hm', -⟩ := bind_eq_some_iff.mp hd
      obtain ⟨m, hm, hname, -⟩ := hback m' hm'
      exact ⟨m, hm, hname, fun hk => by rw [hkind] at hk; cases hk⟩
    · rintro ⟨m, hm, hname, -⟩
      obtain ⟨m', -, hm'⟩ := hfind m hm hname
      unfold ends
      rw [hm', bind_some, if_neg (by omega)]
      rfl

/-! ## Making the links -/

/-- A request is one of a node, for a link the node is written with. -/
theorem mem_requests (hs : h.Sound) (hidx : ∀ a < h.anchorCount, (h.anchor a).idx < 2 ^ 31)
    (hi : item ∈ requests h (nodes.zip (t.graph g).nodes)) : ∃ n n' e, (n, n') ∈ nodes.zip (t.graph g).nodes ∧
      item ∈ readInputs n' (Node.getName h n) (encodeNodeLink h n) 0 ∧ e ∈ h.writtenLinks n ∧ h.Asks n n' item e := by
  obtain ⟨⟨n, n'⟩, hpair, hi⟩ := mem_flatMap.mp hi
  obtain ⟨e, he, hask⟩ := exists_of_forall₂ (readInputs_written hs hidx n n' (Node.getName h n)) hi
  exact ⟨n, n', e, hpair, hi, he, hask⟩

/-- The requests of a graph find their ends when the links of its nodes are found. -/
theorem linksFound_iff (hs : h.Sound) (hidx : ∀ a < h.anchorCount, (h.anchor a).idx < 2 ^ 31)
    (hu : h.Unlinked attrs t g nodes nodeMap) (hmade : ∀ n ∈ nodes, n < h.nodeCount) : h.LinksFound attrs nodes ↔
      ∀ item ∈ requests h (nodes.zip (t.graph g).nodes), (ends nodeMap t item).isSome := by
  constructor
  · intro hfound item hi
    obtain ⟨n, n', e, hpair, -, he, hask⟩ := mem_requests hs hidx hi
    have hn := (of_mem_zip hpair).1
    exact (ends_isSome hs hu (hmade n hn) hpair hask).mpr (hfound n hn e he)
  · intro hall n hn e he
    obtain ⟨i, hi, rfl⟩ := mem_iff_getElem.mp hn
    have hi' : i < (t.graph g).nodes.length := hu.copied.length_eq ▸ hi
    have hpair : (nodes[i], (t.graph g).nodes[i]) ∈ nodes.zip (t.graph g).nodes :=
      mem_iff_getElem.mpr ⟨i, by simp [hi, hi'], getElem_zip⟩
    obtain ⟨item, hitem, hask⟩ := exists_of_forall₂ (readInputs_written hs hidx nodes[i] (t.graph g).nodes[i]
      (Node.getName h nodes[i])).flip he
    exact (ends_isSome hs hu (hmade _ hn) hpair hask).mp (hall item (mem_flatMap.mpr ⟨_, hpair, hitem⟩))

/-- Requests that find their ends are ready to be met. -/
theorem ready_requests (hs : h.Sound) (hidx : ∀ a < h.anchorCount, (h.anchor a).idx < 2 ^ 31)
    (hu : h.Unlinked attrs t g nodes nodeMap) (hmade : ∀ n ∈ nodes, n < h.nodeCount)
    (hall : ∀ item ∈ requests h (nodes.zip (t.graph g).nodes), (ends nodeMap t item).isSome) :
    Ready nodeMap t (requests h (nodes.zip (t.graph g).nodes)) := by
  have hcopied : ∀ item ∈ requests h (nodes.zip (t.graph g).nodes), ∀ d, ends nodeMap t item = some d →
      ∃ n n' e, (n, n') ∈ nodes.zip (t.graph g).nodes ∧ LinkCopied h t g n' item e d := by
    intro item hi d hd
    obtain ⟨n, n', e, hpair, -, he, hask⟩ := mem_requests hs hidx hi
    exact ⟨n, n', e, hpair, ends_spec hs hu (hmade n (of_mem_zip hpair).1) hpair hask hd⟩
  have hnodeMade : ∀ n' ∈ (t.graph g).nodes, n' < t.nodeCount := by
    intro n' hn'
    obtain ⟨n, -, hcopy⟩ := exists_of_forall₂ hu.copied.flip hn'
    exact hcopy.made
  refine ⟨hall, fun item hi d hd => ?_, pairwise_flatMap.mpr ⟨fun p hp => ?_, ?_⟩, fun item hi d hd _ => ?_⟩
  · obtain ⟨n, n', e, hpair, hc⟩ := hcopied item hi d hd
    exact ⟨((mem_outAnchors hu.sound.laid (hnodeMade _ hc.listed)).mp hc.source).2.2,
      ((mem_inAnchors hu.sound.laid (hnodeMade n' (of_mem_zip hpair).2)).mp hc.dest).2.2⟩
  · -- the data inputs a node asks for are apart by their positions
    obtain ⟨n, n'⟩ := p
    refine (readInputs_pairwise _ 0).2.imp_of_mem fun {item item'} hi hi' hpos d d' hd hd' hidx' heq => ?_
    have hmem : ∀ x ∈ readInputs n' (Node.getName h n) (encodeNodeLink h n) 0, x ∈ requests h (nodes.zip (t.graph g).nodes) :=
      fun x hx => mem_flatMap.mpr ⟨(n, n'), hp, hx⟩
    obtain ⟨_, _, e, -, hc⟩ := hcopied item (hmem item hi) d hd
    obtain ⟨_, _, e', -, hc'⟩ := hcopied item' (hmem item' hi') d' hd'
    obtain ⟨hk', hx'⟩ := hc'.input hidx'
    by_cases hneg : 0 ≤ item.srcOutIndex
    · obtain ⟨-, hx⟩ := hc.input hneg
      have hlt := hpos hneg
      rw [heq] at hx'
      omega
    · rw [heq, hc.control (Int.lt_of_not_ge hneg)] at hk'
      cases hk'
  · -- those different nodes ask for are apart by their owners
    have hne : (nodes.zip (t.graph g).nodes).Pairwise fun p q => p.2 ≠ q.2 := by
      refine pairwise_map.mp ?_
      rw [map_snd_zip (Nat.le_of_eq hu.copied.length_eq.symm)]
      exact hu.nodup
    refine hne.imp_of_mem fun {p q} hp hq hpq item hi item' hi' d d' hd hd' _ heq => hpq ?_
    have howner : ∀ r ∈ nodes.zip (t.graph g).nodes, ∀ x ∈ readInputs r.2 (Node.getName h r.1) (encodeNodeLink h r.1) 0, ∀ y,
        ends nodeMap t x = some y → t.owner y.2 = r.2 := by
      intro r hr x hx y hy
      obtain ⟨e, he, hask⟩ := exists_of_forall₂ (readInputs_written hs hidx r.1 r.2 (Node.getName h r.1)) hx
      have hc := ends_spec hs hu (hmade r.1 (of_mem_zip hr).1) hr hask hy
      exact ((mem_inAnchors hu.sound.laid (hnodeMade r.2 (of_mem_zip hr).2)).mp hc.dest).2.1
    rw [← howner p hp item hi d hd, ← howner q hq item' hi' d' hd', heq]
  · obtain ⟨n, n', e, hpair, hc⟩ := hcopied item hi d hd
    exact hu.free n' (of_mem_zip hpair).2 d.2 hc.dest

/-- Items grouped by their keys. -/
theorem flatMap_filter_perm {α β : Type} [DecidableEq β] (key : α → β) : ∀ {bs : List β} {l : List α}, bs.Nodup →
    (∀ x ∈ l, key x ∈ bs) → (bs.flatMap fun b => l.filter fun x => key x = b).Perm l := by
  intro bs
  induction bs with
  | nil =>
    intro l _ hl
    rw [eq_nil_iff_forall_not_mem.mpr fun x hx => absurd (hl x hx) not_mem_nil]
    exact .refl _
  | cons b bs ih =>
    intro l hnd hl
    obtain ⟨hb, hnd⟩ := nodup_cons.mp hnd
    have hrest := ih (l := l.filter fun x => !decide (key x = b)) hnd fun x hx => by
      obtain ⟨hx, hne⟩ := mem_filter.mp hx
      exact (mem_cons.mp (hl x hx)).resolve_left (by simpa using hne)
    have hsame : (bs.flatMap fun c => (l.filter fun x => !decide (key x = b)).filter fun x => key x = c) =
        bs.flatMap fun c => l.filter fun x => key x = c := by
      refine flatMap_congr fun c hc => ?_
      rw [List.filter_filter]
      refine filter_congr fun x _ => ?_
      by_cases hx : key x = c
      · simp [hx, show c ≠ b from fun e => hb (e ▸ hc)]
      · simp [hx]
    rw [hsame] at hrest
    rw [flatMap_cons]
    exact (hrest.append_left _).trans (filter_append_perm (fun x => decide (key x = b)) l)

theorem nodup_flatMap_inAnchors (hl : t.Laid) {ns : List NodeId} (hns : ns.Nodup) (hmade : ∀ n ∈ ns, n < t.nodeCount) :
    (ns.flatMap t.inAnchors).Nodup := by
  refine nodup_flatMap.mpr ⟨fun n hn => nodup_inAnchors hl (hmade n hn), ?_⟩
  refine hns.imp_of_mem fun {m n} hm hn hmn a ha ha' => hmn ?_
  exact ((mem_inAnchors hl (hmade m hm)).mp ha).2.1.symm.trans ((mem_inAnchors hl (hmade n hn)).mp ha').2.1

/-- Links to inputs that have none are the edges into their nodes. -/
theorem edgesInto_linkAll {ns : List NodeId} {l : List (AnchorId × AnchorId)} (hnd : (ns.flatMap t.inAnchors).Nodup)
    (hfree : ∀ n ∈ ns, ∀ b ∈ t.inAnchors n, t.peers b = []) (hdst : ∀ e ∈ l, e.2 ∈ ns.flatMap t.inAnchors)
    (hsrc : ∀ e ∈ l, e.1 ∉ ns.flatMap t.inAnchors) :
    ((linkAll l t).edgesInto ns).Perm (l.map fun e => t.edgeName e.1 e.2) := by
  have hsame := SameButPeers.linkAll l t
  have hin : ∀ n, (linkAll l t).inAnchors n = t.inAnchors n := by
    intro n
    unfold Heap.inAnchors
    rw [hsame.anchorsOf, hsame.anchorsOf]
  have hdesc : ∀ n, (linkAll l t).desc n = t.desc n := fun n => by rw [Heap.desc, hsame.op, hsame.node, Heap.desc]
  have hedge : ∀ a b, (linkAll l t).edgeName a b = t.edgeName a b := fun a b =>
    edgeName_congr ⟨hsame.kind a, hsame.owner a, hsame.idx a⟩ ⟨hsame.kind b, hsame.owner b, hsame.idx b⟩ (hdesc _) (hdesc _)
  have hgroup : (linkAll l t).edgesInto ns =
      ((ns.flatMap t.inAnchors).flatMap fun b => l.filter fun e => e.2 = b).map fun e => t.edgeName e.1 e.2 := by
    unfold Heap.edgesInto
    rw [flatMap_congr fun n _ => hin n, map_flatMap]
    refine flatMap_congr fun b hb => ?_
    obtain ⟨n, hn, hbn⟩ := mem_flatMap.mp hb
    rw [peers_linkAll l fun e he heq => hsrc e he (heq ▸ hb), hfree n hn b hbn, nil_append, List.map_map]
    refine map_congr_left fun e he => ?_
    rw [Function.comp_apply, hedge, show e.2 = b by simpa using (mem_filter.mp he).2]
  rw [hgroup]
  exact (flatMap_filter_perm Prod.snd hnd hdst).map _

/-- Requests that are met make links named as those that were written. -/
theorem names_of_asks (hs : h.Sound) (hu : h.Unlinked attrs t g nodes nodeMap) (hn : n < h.nodeCount)
    (hpair : (n, n') ∈ nodes.zip (t.graph g).nodes) {items : List NodeNameNodeReq} {links : List (AnchorId × AnchorId)}
    (hasks : List.Forall₂ (h.Asks n n') items links) (hall : ∀ item ∈ items, (ends nodeMap t item).isSome) :
    (items.filterMap (ends nodeMap t)).map (fun d => t.edgeName d.1 d.2) = links.map fun e => h.edgeName e.1 e.2 := by
  induction hasks with
  | nil => rfl
  | @cons item e items links hask _ ih =>
    obtain ⟨d, hd⟩ := isSome_iff_exists.mp (hall item mem_cons_self)
    have ih := ih fun x hx => hall x (mem_cons_of_mem item hx)
    rw [filterMap_cons_some hd, map_cons, map_cons, ih, (ends_spec hs hu hn hpair hask hd).name]

/-- Reading the links of a graph that succeeds has found them. -/
theorem found_of_decodeNodeLink (hs : h.Sound) (hidx : ∀ a < h.anchorCount, (h.anchor a).idx < 2 ^ 31)
    (hu : h.Unlinked attrs t g nodes nodeMap) (hmade : ∀ n ∈ nodes, n < h.nodeCount) {w : Heap}
    (hr : decodeNodeLink nodeMap (nodes.map (encodeNode attrs level h)) t = some (true, w)) : h.LinksFound attrs nodes := by
  have hmap : nodes.map (encodeNode attrs level h) = (nodes.zip (t.graph g).nodes).map fun e => encodeNode attrs level h e.1 := by
    conv_lhs => rw [← map_fst_zip (Nat.le_of_eq hu.copied.length_eq)]
    rw [List.map_map]
    rfl
  rw [hmap, decodeNodeLink_eq hu.found] at hr
  exact (linksFound_iff hs hidx hu hmade).mpr (ends_of_eachOk (meets_meet nodeMap) hr)

/-- Links that are found are made, between the nodes of the graph, and are named as they were. -/
theorem decodeNodeLink_spec (level : DumpLevel) (hs : h.Sound) (hidx : ∀ a < h.anchorCount, (h.anchor a).idx < 2 ^ 31)
    (hu : h.Unlinked attrs t g nodes nodeMap) (hmade : ∀ n ∈ nodes, n < h.nodeCount) (hfound : h.LinksFound attrs nodes) :
    ∃ w, decodeNodeLink nodeMap (nodes.map (encodeNode attrs level h)) t = some (true, w) ∧ t.SameButPeers w ∧ w.Sound ∧
      (∀ b, (∀ n ∈ (t.graph g).nodes, ∀ k, b ∉ t.anchorsOf n k) → w.peers b = t.peers b) ∧
      (∀ n ∈ (t.graph g).nodes, ∀ b ∈ t.inAnchors n, ∀ a ∈ w.peers b, t.owner a ∈ (t.graph g).nodes) ∧
      (w.edgesInto (t.graph g).nodes).Perm ((nodes.flatMap h.writtenLinks).map fun e => h.edgeName e.1 e.2) := by
  have hlen := hu.copied.length_eq
  have hmap : nodes.map (encodeNode attrs level h) = (nodes.zip (t.graph g).nodes).map fun e => encodeNode attrs level h e.1 := by
    conv_lhs => rw [← map_fst_zip (Nat.le_of_eq hlen)]
    rw [List.map_map]
    rfl
  have hall := (linksFound_iff hs hidx hu hmade).mp hfound
  have hnodeMade : ∀ n' ∈ (t.graph g).nodes, n' < t.nodeCount := by
    intro n' hn'
    obtain ⟨n, -, hcopy⟩ := exists_of_forall₂ hu.copied.flip hn'
    exact hcopy.made
  -- the links are from outputs of nodes of the graph to inputs of its nodes
  have hlinks : ∀ d ∈ (requests h (nodes.zip (t.graph g).nodes)).filterMap (ends nodeMap t),
      d.1 ∈ t.outAnchors (t.owner d.1) ∧ t.owner d.1 ∈ (t.graph g).nodes ∧ ∃ n' ∈ (t.graph g).nodes, d.2 ∈ t.inAnchors n' := by
    intro d hd
    obtain ⟨item, hi, hd⟩ := mem_filterMap.mp hd
    obtain ⟨n, n', e, hpair, -, -, hask⟩ := mem_requests hs hidx hi
    have hc := ends_spec hs hu (hmade n (of_mem_zip hpair).1) hpair hask hd
    exact ⟨hc.source, hc.listed, n', (of_mem_zip hpair).2, hc.dest⟩
  have hout : ∀ d ∈ (requests h (nodes.zip (t.graph g).nodes)).filterMap (ends nodeMap t),
      t.Held d.1 ∧ (t.kind d.1).isIn = false := by
    intro d hd
    obtain ⟨hsrc, hlisted, -⟩ := hlinks d hd
    obtain ⟨hheld, -, hkind⟩ := (mem_outAnchors hu.sound.laid (hnodeMade _ hlisted)).mp hsrc
    exact ⟨hheld, hkind⟩
  have hin : ∀ b ∈ (t.graph g).nodes.flatMap t.inAnchors, t.Held b ∧ t.owner b ∈ (t.graph g).nodes ∧ (t.kind b).isIn = true := by
    intro b hb
    obtain ⟨n, hn, hb⟩ := mem_flatMap.mp hb
    obtain ⟨hheld, howner, hkind⟩ := (mem_inAnchors hu.sound.laid (hnodeMade n hn)).mp hb
    exact ⟨hheld, howner ▸ hn, hkind⟩
  have hdst : ∀ d ∈ (requests h (nodes.zip (t.graph g).nodes)).filterMap (ends nodeMap t),
      d.2 ∈ (t.graph g).nodes.flatMap t.inAnchors := by
    intro d hd
    obtain ⟨-, -, n', hn', hd⟩ := hlinks d hd
    exact mem_flatMap.mpr ⟨n', hn', hd⟩
  have hsrc : ∀ d ∈ (requests h (nodes.zip (t.graph g).nodes)).filterMap (ends nodeMap t),
      d.1 ∉ (t.graph g).nodes.flatMap t.inAnchors := by
    intro d hd hmem
    have hkind := (hin d.1 hmem).2.2
    rw [(hout d hd).2] at hkind
    cases hkind
  refine ⟨_, ?_, SameButPeers.linkAll _ t, sound_linkAll hu.sound fun d hd => ⟨(hout d hd).1, (hin d.2 (hdst d hd)).1⟩,
    fun b hb => ?_, fun n hn b hb a ha => ?_, ?_⟩
  · rw [hmap, decodeNodeLink_eq hu.found]
    exact eachOk_of_ready (meets_meet nodeMap) (ready_requests hs hidx hu hmade hall)
  · refine peers_linkAll_of_not_mem _ (fun d hd heq => ?_) fun d hd heq => ?_
    · subst heq
      exact hb _ (hlinks d hd).2.1 _ (hout d hd).1.2
    · subst heq
      exact hb _ (hin d.2 (hdst d hd)).2.1 _ (hin d.2 (hdst d hd)).1.2
  · rw [peers_linkAll _ fun d hd heq => hsrc d hd (heq ▸ mem_flatMap.mpr ⟨n, hn, hb⟩), hu.free n hn b hb,
      nil_append] at ha
    obtain ⟨d, hd, rfl⟩ := List.mem_map.mp ha
    exact (hlinks d (mem_filter.mp hd).1).2.1
  · refine (edgesInto_linkAll (nodup_flatMap_inAnchors hu.sound.laid hu.nodup hnodeMade) hu.free hdst hsrc).trans ?_
    refine .of_eq ?_
    have hwritten : nodes.flatMap h.writtenLinks = (nodes.zip (t.graph g).nodes).flatMap fun e => h.writtenLinks e.1 := by
      conv_lhs => rw [← map_fst_zip (Nat.le_of_eq hlen)]
      rw [flatMap_map]
    rw [hwritten, requests, filterMap_flatMap, map_flatMap, map_flatMap]
    refine flatMap_congr fun p hp => ?_
    exact names_of_asks hs hu (hmade p.1 (of_mem_zip hp).1) hp (readInputs_written hs hidx p.1 p.2 _)
      fun item hi => hall item (mem_flatMap.mpr ⟨p, hp, hi⟩)

end OnnxLinksAux

end Metadef
