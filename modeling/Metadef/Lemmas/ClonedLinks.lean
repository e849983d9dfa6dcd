import Metadef.Lemmas.CallSteps
import Metadef.Lemmas.ClonedNodes
import Metadef.Lemmas.OnnxLinks

/-!
# Links made anew between clones

The links out of the nodes of a graph are made anew between the clones in the order in which they are listed. Each is found by
the names of its nodes and the indices of its anchors.
-/

namespace Metadef

open List Option Heap CallAux

/-- The anchor a node has of a class at an index; of the control anchors it has one. -/
def Heap.anchorAt (h : Heap) (n : NodeId) (k : AnchorKind) (i : Int) : Option AnchorId :=
  (h.anchorsOf n k)[if k.isData then i.toNat else 0]?

/-- The links that are made anew for a node: those of its data outputs to data inputs, and all of its control output. -/
def Heap.relinkedFrom (h : Heap) (n : NodeId) : List (AnchorId × AnchorId) :=
  ((h.node n).outDataAnchors.flatMap fun a => (OutDataAnchor.getPeerInDataAnchors h a).map fun b => (a, b)) ++
    (h.peers (h.node n).outControlAnchor).map fun b => ((h.node n).outControlAnchor, b)

/-- The links that are made anew for nodes, in order. -/
def Heap.relinked (h : Heap) (nodes : List NodeId) : List (AnchorId × AnchorId) := nodes.flatMap h.relinkedFrom

/-- The links from nodes. -/
def Heap.linkPairs (h : Heap) (nodes : List NodeId) : List (AnchorId × AnchorId) :=
  (nodes.flatMap h.outAnchors).flatMap fun a => (h.peers a).map fun b => (a, b)

/-- A link from a data output to a control input. -/
def Heap.isDataControl (h : Heap) (e : AnchorId × AnchorId) : Bool := h.kind e.1 = .outData && h.kind e.2 = .inControl

/-- An edge between nodes renamed with a suffix. -/
def EdgeName.renamed (namePrefix : String) (e : EdgeName) : EdgeName :=
  { e with source := e.source ++ namePrefix, dest := e.dest ++ namePrefix }

/-- A graph whose nodes, all of them, were cloned into another. -/
structure Heap.AllCloned (namePrefix : String) (h t : Heap) (nodes : List NodeId) (g : GraphId)
    (nodeMap : OrderedMap String NodeId) : Prop where
  sound : h.Sound
  directed : h.Directed
  made : ∀ n ∈ nodes, n < h.nodeCount ∧ (h.node n).op < h.opCount
  inside : ∀ a, h.owner a ∈ nodes → ∀ b ∈ h.peers a, h.owner b ∈ nodes
  names : (nodes.map (Node.getName h)).Nodup
  controls : ∀ n ∈ nodes, (h.anchor (h.node n).inControlAnchor).idx = -1
  cloned : h.NodesCloned namePrefix t g nodes nodeMap
  outputs : ∀ n ∈ nodes, (h.node n).outDataAnchors.length ≤ (h.desc n).getOutputsSize

namespace ClonedLinksAux

open Cmd GraphUtils StructureAux OnnxGraphsAux OnnxLinksAux ClonedNodesAux LinkListsAux

/-! ## Anchors at their places -/

section Anchors

variable {h : Heap} {a : AnchorId} {n : NodeId} {k : AnchorKind} {i : Int}

/-- A held anchor is where it is looked for. -/
theorem anchorAt_self (hl : h.Laid) (ha : h.Held a) : h.anchorAt (h.owner a) (h.kind a) (h.anchorIdx a) = some a ∧
    ((h.kind a).isData = true → 0 ≤ h.anchorIdx a) := by
  obtain ⟨hn, hmem⟩ := ha
  obtain ⟨j, hj⟩ := getElem?_of_mem hmem
  unfold Heap.anchorAt Heap.anchorIdx
  cases hk : (h.kind a).isData with
  | true =>
    have hidx := hl.idx _ hn _ hk j a hj
    simp [hidx, hj]
  | false =>
    refine ⟨?_, nofun⟩
    cases hkind : h.kind a with
    | inData | outData => simp [hkind, AnchorKind.isData] at hk
    | inControl | outControl =>
      rw [hkind] at hmem
      simp only [Heap.anchorsOf, mem_singleton] at hmem
      simp [Heap.anchorsOf, ← hmem]

/-- An anchor at a place is of the node and the class, and of the index when that is of a data anchor. -/
theorem of_anchorAt (hl : h.Laid) (hn : n < h.nodeCount) (ha : h.anchorAt n k i = some a) :
    a ∈ h.anchorsOf n k ∧ h.kind a = k ∧ h.owner a = n ∧ ((k.isData = true → 0 ≤ i) → (k.isData = false → i = -1) →
      h.anchorIdx a = i) := by
  have hmem : a ∈ h.anchorsOf n k := mem_of_getElem? ha
  refine ⟨hmem, hl.kind n hn k a hmem, hl.owner n hn k a hmem, fun hpos hneg => ?_⟩
  unfold Heap.anchorAt at ha
  unfold Heap.anchorIdx
  rw [hl.kind n hn k a hmem]
  cases hk : k.isData with
  | true =>
    rw [hk, if_pos rfl] at ha
    rw [if_pos rfl, hl.idx n hn k hk _ a ha, Int.toNat_of_nonneg (hpos hk)]
  | false => exact (hneg hk).symm

theorem getOutAnchor_eq (hk : k.isIn = false) (hpos : k.isData = true → 0 ≤ i) (hneg : k.isData = false → i = -1) :
    Node.getOutAnchor h n i = h.anchorAt n k i := by
  cases k with
  | inData | inControl => cases hk
  | outData =>
    have hi : 0 ≤ i := hpos rfl
    rw [Node.getOutAnchor, if_neg (by omega), Node.getOutDataAnchor, if_neg (by omega)]
    rfl
  | outControl =>
    rw [Node.getOutAnchor, if_pos (hneg rfl)]
    rfl

theorem getInAnchor_eq (hk : k.isIn = true) (hpos : k.isData = true → 0 ≤ i) (hneg : k.isData = false → i = -1) :
    Node.getInAnchor h n i = h.anchorAt n k i := by
  cases k with
  | outData | outControl => cases hk
  | inData =>
    have hi : 0 ≤ i := hpos rfl
    rw [Node.getInAnchor, if_neg (by omega), Node.getInDataAnchor, if_neg (by omega)]
    rfl
  | inControl =>
    rw [Node.getInAnchor, if_pos (hneg rfl)]
    rfl

theorem anchorIdx_control (hk : (h.kind a).isData = false) : h.anchorIdx a = -1 := by
  rw [Heap.anchorIdx, hk]
  rfl

end Anchors

/-! ## Clones -/

section Clones

variable {namePrefix : String} {h t : Heap} {g : GraphId} {n m : NodeId} {a b c : AnchorId} {nodes : List NodeId}
  {nodeMap : OrderedMap String NodeId}

/-- The clone of a node. -/
def cloneOf (namePrefix : String) (h : Heap) (nodeMap : OrderedMap String NodeId) (n : NodeId) : NodeId :=
  (nodeMap.find (Node.getName h n ++ namePrefix)).getD 0

/-- The clone of an anchor, if the clone of its node has one. -/
def cloneAnchor (namePrefix : String) (h t : Heap) (nodeMap : OrderedMap String NodeId) (a : AnchorId) : Option AnchorId :=
  t.anchorAt (cloneOf namePrefix h nodeMap (h.owner a)) (h.kind a) (h.anchorIdx a)

variable (hc : h.AllCloned namePrefix t nodes g nodeMap)
include hc

theorem clone_spec (hn : n ∈ nodes) : nodeMap.find (Node.getName h n ++ namePrefix) = some (cloneOf namePrefix h nodeMap n) ∧
    h.NodeCloned namePrefix t n (cloneOf namePrefix h nodeMap n) ∧ cloneOf namePrefix h nodeMap n ∈ (t.graph g).nodes := by
  obtain ⟨i, hi, rfl⟩ := mem_iff_getElem.mp hn
  have hi' : i < (t.graph g).nodes.length := hc.cloned.cloned.length_eq ▸ hi
  have hpair : (nodes[i], (t.graph g).nodes[i]) ∈ nodes.zip (t.graph g).nodes :=
    mem_iff_getElem.mpr ⟨i, by simpa using ⟨hi, hi'⟩, by simp⟩
  have hfind := hc.cloned.found _ hpair
  rw [cloneOf, hfind]
  exact ⟨rfl, (forall₂_iff_zip.mp hc.cloned.cloned).2 hpair, getElem_mem hi'⟩

theorem clone_inj (hn : n ∈ nodes) (hm : m ∈ nodes)
    (he : cloneOf namePrefix h nodeMap n = cloneOf namePrefix h nodeMap m) : n = m := by
  have hname := (clone_spec hc hn).2.1.name
  rw [he, (clone_spec hc hm).2.1.name] at hname
  exact (inj_on_of_nodup_map hc.names hm hn (append_inj hname)).symm

/-- The clone of an anchor is of the clone of its node, and has its class and index. -/
theorem cloneAnchor_spec (ha : h.Held a) (hn : h.owner a ∈ nodes) (hb : cloneAnchor namePrefix h t nodeMap a = some b) :
    b ∈ t.anchorsOf (cloneOf namePrefix h nodeMap (h.owner a)) (h.kind a) ∧ t.kind b = h.kind a ∧
      t.owner b = cloneOf namePrefix h nodeMap (h.owner a) ∧ t.anchorIdx b = h.anchorIdx a := by
  obtain ⟨hmem, hkind, howner, hidx⟩ := of_anchorAt hc.cloned.sound.laid (clone_spec hc hn).2.1.made hb
  refine ⟨hmem, hkind, howner, hidx (anchorAt_self hc.sound.laid ha).2 fun hk => ?_⟩
  rw [Heap.anchorIdx, hk]
  rfl

theorem cloneAnchor_inj (ha : h.Held a) (hb : h.Held b) (hna : h.owner a ∈ nodes) (hnb : h.owner b ∈ nodes)
    (hac : cloneAnchor namePrefix h t nodeMap a = some c) (hbc : cloneAnchor namePrefix h t nodeMap b = some c) : a = b := by
  obtain ⟨-, hka, hoa, hia⟩ := cloneAnchor_spec hc ha hna hac
  obtain ⟨-, hkb, hob, hib⟩ := cloneAnchor_spec hc hb hnb hbc
  have howner := clone_inj hc hna hnb (hoa.symm.trans hob)
  have h₁ := (anchorAt_self hc.sound.laid ha).1
  have h₂ := (anchorAt_self hc.sound.laid hb).1
  rw [howner, ← hka, ← hia] at h₁
  rw [← hkb, ← hib] at h₂
  exact Option.some.inj (h₁.symm.trans h₂)

/-- A link between clones is named as that between the originals, with the suffix. -/
theorem edgeName_clone {d e : AnchorId} (ha : h.Held a) (hb : h.Held b) (hna : h.owner a ∈ nodes) (hnb : h.owner b ∈ nodes)
    (had : cloneAnchor namePrefix h t nodeMap a = some d) (hbe : cloneAnchor namePrefix h t nodeMap b = some e) :
    t.edgeName d e = (h.edgeName a b).renamed namePrefix := by
  obtain ⟨-, hka, hoa, hia⟩ := cloneAnchor_spec hc ha hna had
  obtain ⟨-, hkb, hob, hib⟩ := cloneAnchor_spec hc hb hnb hbe
  unfold Heap.edgeName EdgeName.renamed
  rw [hka, hia, hoa, hkb, hib, hob, (clone_spec hc hna).2.1.name, (clone_spec hc hnb).2.1.name]

/-- The clone of a node has the anchors of its descriptor: of its outputs all have clones, of its inputs those that fit. -/
theorem cloneAnchor_isSome (ha : h.Held a) (hn : h.owner a ∈ nodes) : (cloneAnchor namePrefix h t nodeMap a).isSome ↔
    (h.kind a = .inData → (h.anchor a).idx < (h.desc (h.owner a)).getAllInputsSize) := by
  obtain ⟨-, hclone, -⟩ := clone_spec hc hn
  obtain ⟨hself, hpos⟩ := anchorAt_self hc.sound.laid ha
  unfold cloneAnchor Heap.anchorAt
  unfold Heap.anchorAt at hself
  unfold Heap.anchorIdx at hself hpos ⊢
  cases hk : h.kind a with
  | inControl | outControl => simp [Heap.anchorsOf, AnchorKind.isData]
  | inData =>
    simp only [hk, AnchorKind.isData, if_true, true_imp_iff, Heap.anchorsOf] at hpos ⊢
    rw [isSome_iff_ne_none, ne_eq, List.getElem?_eq_none_iff, hclone.inputs]
    omega
  | outData =>
    obtain ⟨hlt, -⟩ := List.getElem?_eq_some_iff.mp hself
    have hfits := hc.outputs _ hn
    simp only [hk, AnchorKind.isData, if_true, Heap.anchorsOf] at hlt ⊢
    rw [isSome_iff_ne_none, ne_eq, List.getElem?_eq_none_iff, hclone.outputs]
    simp only [reduceCtorEq, false_imp_iff, iff_true]
    omega

/-! ## Links -/

/-- A link that is made anew. -/
structure Relinked (h : Heap) (nodes : List NodeId) (e : AnchorId × AnchorId) : Prop where
  peer : e.2 ∈ h.peers e.1
  out : h.Held e.1
  into : h.Held e.2
  outKind : (h.kind e.1).isIn = false
  inKind : (h.kind e.2).isIn = true
  data : h.kind e.1 = .outData → h.kind e.2 = .inData
  outOwner : h.owner e.1 ∈ nodes
  inOwner : h.owner e.2 ∈ nodes

variable {e : AnchorId × AnchorId} {s : Heap}

theorem relinked_of_mem (hn : n ∈ nodes) (he : e ∈ h.relinkedFrom n) : Relinked h nodes e ∧ h.owner e.1 = n := by
  have hlt := (hc.made n hn).1
  have hpeer : ∀ a b, b ∈ h.peers a → a ∈ h.outAnchors n → (h.kind a = .outData → h.kind b = .inData) →
      Relinked h nodes (a, b) ∧ h.owner a = n := by
    intro a b hb ha hdata
    obtain ⟨hheld, howner, hkind⟩ := (mem_outAnchors hc.sound.laid hlt).mp ha
    refine ⟨⟨hb, hheld, hc.sound.peersHeld a b hb, hkind, ?_, hdata, howner ▸ hn, hc.inside a (howner ▸ hn) b hb⟩, howner⟩
    rw [hc.directed a b hb, hkind]
    rfl
  rcases mem_append.mp he with he | he
  · obtain ⟨a, ha, he⟩ := mem_flatMap.mp he
    obtain ⟨b, hb, rfl⟩ := List.mem_map.mp he
    obtain ⟨hb, hkind⟩ := mem_filter.mp hb
    exact hpeer a b hb (mem_append_left _ ha) fun _ => of_decide_eq_true hkind
  · obtain ⟨b, hb, rfl⟩ := List.mem_map.mp he
    have hmem : (h.node n).outControlAnchor ∈ h.anchorsOf n .outControl := mem_singleton.mpr rfl
    refine hpeer _ b hb (mem_append_right _ hmem) fun hk => ?_
    rw [hc.sound.laid.kind n hlt _ _ hmem] at hk
    cases hk

theorem relinked_of_mem_relinked (he : e ∈ h.relinked nodes) : Relinked h nodes e := by
  obtain ⟨n, hn, he⟩ := mem_flatMap.mp he
  exact (relinked_of_mem hc hn he).1

/-- The anchors a link is made anew between. -/
def cloneEnds (namePrefix : String) (h t : Heap) (nodeMap : OrderedMap String NodeId) (e : AnchorId × AnchorId) :
    Option (AnchorId × AnchorId) :=
  (cloneAnchor namePrefix h t nodeMap e.1).bind fun a => (cloneAnchor namePrefix h t nodeMap e.2).map fun b => (a, b)

omit hc in
theorem of_cloneEnds {d : AnchorId × AnchorId} (hd : cloneEnds namePrefix h t nodeMap e = some d) :
    cloneAnchor namePrefix h t nodeMap e.1 = some d.1 ∧ cloneAnchor namePrefix h t nodeMap e.2 = some d.2 := by
  obtain ⟨a, ha, hd⟩ := bind_eq_some_iff.mp hd
  obtain ⟨b, hb, rfl⟩ := map_eq_some_iff.mp hd
  exact ⟨ha, hb⟩

/-- A link can be made anew when the input it goes to is there. -/
theorem cloneEnds_isSome (he : Relinked h nodes e) : (cloneEnds namePrefix h t nodeMap e).isSome ↔
    (h.kind e.2 = .inData → (h.anchor e.2).idx < (h.desc (h.owner e.2)).getAllInputsSize) := by
  have hout : (cloneAnchor namePrefix h t nodeMap e.1).isSome := by
    refine (cloneAnchor_isSome hc he.out he.outOwner).mpr fun hk => ?_
    have hkind := he.outKind
    rw [hk] at hkind
    cases hkind
  obtain ⟨a, ha⟩ := isSome_iff_exists.mp hout
  rw [← cloneAnchor_isSome hc he.into he.inOwner]
  cases hb : cloneAnchor namePrefix h t nodeMap e.2 <;> simp [cloneEnds, ha, hb]

/-- The round that makes a link anew. -/
def relinkLink (namePrefix : String) (h : Heap) (nodeMap : OrderedMap String NodeId) (e : AnchorId × AnchorId) : Cmd Heap Bool :=
  relinkPeerUnder namePrefix nodeMap
    (fun s => Node.getOutAnchor s (cloneOf namePrefix h nodeMap (h.owner e.1)) (h.anchorIdx e.1)) e.2

theorem relinkLink_eq (hs : t.SameButPeers s) (he : Relinked h nodes e) : relinkLink namePrefix h nodeMap e s =
      addEdge (cloneAnchor namePrefix h t nodeMap e.1) (cloneAnchor namePrefix h t nodeMap e.2) s := by
  have hanchor : t.anchor e.2 = h.anchor e.2 :=
    hc.cloned.grown.anchor _ (hc.sound.laid.made _ he.into.1 _ _ he.into.2)
  have howner : s.owner e.2 = h.owner e.2 := by rw [hs.owner, Heap.owner, hanchor, Heap.owner]
  have hname : Node.getName s (s.owner e.2) = Node.getName h (h.owner e.2) := by
    obtain ⟨hlt, hop⟩ := hc.made _ he.inOwner
    rw [howner]
    refine getName_congr ?_
    rw [Heap.desc, hs.op, hs.node]
    exact Grown.desc hc.cloned.grown hlt hop
  have hidx : (s.anchor e.2).idx = h.anchorIdx e.2 := by
    rw [hs.idx, hanchor, Heap.anchorIdx]
    split
    · rfl
    · -- control inputs are numbered so
      have hkind : h.kind e.2 = .inControl := by
        have hin := he.inKind
        cases hk : h.kind e.2 <;> simp_all [AnchorKind.isData, AnchorKind.isIn]
      have hmem := he.into.2
      rw [hkind] at hmem
      rw [mem_singleton.mp hmem]
      exact hc.controls _ he.inOwner
  have hat : ∀ n k i, s.anchorAt n k i = t.anchorAt n k i := by
    intro n k i
    unfold Heap.anchorAt
    rw [hs.anchorsOf]
  have hpos : ∀ x, h.Held x → (h.kind x).isData = true → 0 ≤ h.anchorIdx x := fun x hx => (anchorAt_self hc.sound.laid hx).2
  rw [relinkLink, relinkPeerUnder, get_bind_apply, hname, (clone_spec hc he.inOwner).1]
  change addEdge (Node.getOutAnchor s _ _) (Node.getInAnchor s _ (s.anchor e.2).idx) s = _
  rw [hidx, getOutAnchor_eq he.outKind (hpos _ he.out) anchorIdx_control,
    getInAnchor_eq he.inKind (hpos _ he.into) anchorIdx_control, hat, hat]
  rfl

/-- Making the links of a list anew asks for the links between the clones. -/
theorem asksLinks_relinked {l : List (AnchorId × AnchorId)} (hl : ∀ e ∈ l, Relinked h nodes e) :
    AsksLinks t (relinkLink namePrefix h nodeMap) (cloneEnds namePrefix h t nodeMap) (fun e => h.kind e.1 = .outData) l := by
  have hspec : ∀ e ∈ l, ∀ d, cloneEnds namePrefix h t nodeMap e = some d → cloneAnchor namePrefix h t nodeMap e.1 = some d.1 ∧
      cloneAnchor namePrefix h t nodeMap e.2 = some d.2 ∧ t.kind d.1 = h.kind e.1 ∧ t.kind d.2 = h.kind e.2 := by
    intro e he d hd
    obtain ⟨ha, hb⟩ := of_cloneEnds hd
    exact ⟨ha, hb, (cloneAnchor_spec hc (hl e he).out (hl e he).outOwner ha).2.1,
      (cloneAnchor_spec hc (hl e he).into (hl e he).inOwner hb).2.1⟩
  have hrun : ∀ s, t.SameButPeers s → ∀ e ∈ l, ∀ d, cloneEnds namePrefix h t nodeMap e = some d →
      relinkLink namePrefix h nodeMap e s = if s.kind d.1 = .outData ∧ s.kind d.2 = .inData ∧ s.peers d.2 ≠ [] then
        some (false, s) else some (true, Anchor.linked s d.1 d.2) := by
    intro s hs e he d hd
    obtain ⟨ha, hb, hka, hkb⟩ := hspec e he d hd
    rw [relinkLink_eq hc hs (hl e he), ha, hb]
    refine addEdge_apply s ?_ ?_
    · rw [hs.kind, hka]
      exact (hl e he).outKind
    · rw [hs.kind, hkb]
      exact (hl e he).inKind
  refine ⟨fun s hs e he hnone => ?_, fun s hs e he d hd hfree => ?_, fun s hs e he d hd hsingle hne => ?_, fun e he d hd => ?_⟩
  · rw [relinkLink_eq hc hs (hl e he)]
    cases ha : cloneAnchor namePrefix h t nodeMap e.1 with
    | none => exact addEdge_none_left _ s
    | some a =>
      cases hb : cloneAnchor namePrefix h t nodeMap e.2 with
      | none => exact addEdge_none_right _ s
      | some b => simp [cloneEnds, ha, hb] at hnone
  · obtain ⟨-, -, hka, -⟩ := hspec e he d hd
    rw [hrun s hs e he d hd, if_neg]
    rintro ⟨hk, -, hne⟩
    exact hne (hfree (hka.symm.trans ((hs.kind _).symm.trans hk)))
  · obtain ⟨-, -, hka, hkb⟩ := hspec e he d hd
    rw [hrun s hs e he d hd, if_pos ⟨(hs.kind _).trans (hka.trans hsingle), (hs.kind _).trans
      (hkb.trans ((hl e he).data hsingle)), hne⟩]
  · obtain ⟨-, -, hka, hkb⟩ := hspec e he d hd
    exact ⟨hka ▸ (hl e he).outKind, hkb ▸ (hl e he).inKind⟩

/-! ## The loop -/

omit hc in
/-- What links between clones leave as it was: everything but peers, and the peers of the originals. -/
def Linking (h t s : Heap) : Prop := t.SameButPeers s ∧ ∀ a < h.anchorCount, s.peers a = h.peers a

theorem linking_self : Linking h t t := ⟨SameButPeers.refl t, fun a _ => congrFun hc.cloned.peers a⟩

theorem getName_of_linking (hs : t.SameButPeers s) (hn : n ∈ nodes) : Node.getName s n = Node.getName h n := by
  obtain ⟨hlt, hop⟩ := hc.made n hn
  refine getName_congr ?_
  rw [Heap.desc, hs.op, hs.node]
  exact Grown.desc hc.cloned.grown hlt hop

/-- A link that is made anew is between clones. -/
theorem linking_relinkLink {s' : Heap} {ok : Bool} (hs : Linking h t s) (he : Relinked h nodes e)
    (hr : relinkLink namePrefix h nodeMap e s = some (ok, s')) : Linking h t s' := by
  rw [relinkLink_eq hc hs.1 he] at hr
  rcases addEdge_cases hr with ⟨-, rfl⟩ | ⟨-, a, b, ha, hb, -, -, -, rfl⟩
  · exact hs
  · refine ⟨SameButPeers.trans hs.1 (SameButPeers.linked s a b), fun x hx => ?_⟩
    have hnew : ∀ {y z}, h.Held y → h.owner y ∈ nodes → cloneAnchor namePrefix h t nodeMap y = some z → x ≠ z := by
      rintro y z hy hn hz rfl
      have hmem := (cloneAnchor_spec hc hy hn hz).1
      exact absurd hx (Nat.not_lt.mpr ((hc.cloned.fresh _ (clone_spec hc hn).2.2).2 _ _ hmem))
    rw [linked_peers_of_ne (hnew he.out he.outOwner ha) (hnew he.into he.inOwner hb)]
    exact hs.2 x hx

/-- The links of a node are made anew one after the other. -/
theorem relinkGraphEdgesUnder_eq (hs : Linking h t s) (hn : n ∈ nodes) :
    relinkGraphEdgesUnder namePrefix nodeMap n s = Cmd.eachOk (relinkLink namePrefix h nodeMap) (h.relinkedFrom n) s := by
  have hlt := (hc.made n hn).1
  have hnode : s.node n = h.node n := (congrFun hs.1.node n).trans (hc.cloned.grown.node n hlt)
  have hold : ∀ k, ∀ a ∈ h.anchorsOf n k, a < h.anchorCount := hc.sound.laid.made n hlt
  have hpeer : ∀ k, ∀ a ∈ h.anchorsOf n k, s.peers a = h.peers a := fun k a ha => hs.2 a (hold k a ha)
  have hin : ∀ a ∈ (h.node n).outDataAnchors, OutDataAnchor.getPeerInDataAnchors s a = OutDataAnchor.getPeerInDataAnchors h a := by
    intro a ha
    rw [OutDataAnchor.getPeerInDataAnchors, OutDataAnchor.getPeerInDataAnchors, Anchor.getPeersOf, Anchor.getPeersOf,
      hpeer .outData a ha]
    refine filter_congr fun b hb => ?_
    have hb := hc.sound.laid.made _ (hc.sound.peersHeld a b hb).1 _ _ (hc.sound.peersHeld a b hb).2
    rw [hs.1.kind, Heap.kind, hc.cloned.grown.anchor b hb]
    rfl
  have hctrl : s.peers (h.node n).outControlAnchor = h.peers (h.node n).outControlAnchor :=
    hpeer .outControl _ (mem_singleton.mpr rfl)
  have hlink : ∀ k, ∀ a ∈ h.anchorsOf n k, h.owner a = n ∧ h.kind a = k := fun k a ha =>
    ⟨hc.sound.laid.owner n hlt k a ha, hc.sound.laid.kind n hlt k a ha⟩
  have hdata : Cmd.eachOk (fun a => Cmd.eachOk (relinkPeerUnder namePrefix nodeMap fun u =>
        Node.getOutAnchor u (cloneOf namePrefix h nodeMap n) (s.anchor a).idx) (OutDataAnchor.getPeerInDataAnchors s a))
      (h.node n).outDataAnchors s = Cmd.eachOk (relinkLink namePrefix h nodeMap) ((h.node n).outDataAnchors.flatMap fun a =>
        (OutDataAnchor.getPeerInDataAnchors h a).map fun b => (a, b)) s := by
    rw [eachOk_flatMap]
    refine eachOk_congr (I := fun _ => True) (fun a ha u _ => ?_) (fun _ _ _ _ _ _ _ => trivial) trivial
    obtain ⟨howner, hkind⟩ := hlink .outData a ha
    have hidx : (s.anchor a).idx = h.anchorIdx a := by
      rw [hs.1.idx, hc.cloned.grown.anchor a (hold .outData a ha), Heap.anchorIdx, hkind]
      rfl
    rw [eachOk_map, hin a ha, hidx]
    simp only [relinkLink, howner]
  have hcontrol : Cmd.eachOk (relinkPeerUnder namePrefix nodeMap fun u =>
        some (u.node (cloneOf namePrefix h nodeMap n)).outControlAnchor) (h.peers (h.node n).outControlAnchor) =
      Cmd.eachOk (relinkLink namePrefix h nodeMap)
        ((h.peers (h.node n).outControlAnchor).map fun b => ((h.node n).outControlAnchor, b)) := by
    obtain ⟨howner, hkind⟩ := hlink .outControl (h.node n).outControlAnchor (mem_singleton.mpr rfl)
    have hidx : h.anchorIdx (h.node n).outControlAnchor = -1 := anchorIdx_control (by rw [hkind]; rfl)
    rw [eachOk_map]
    simp only [relinkLink, howner, hidx]
    rfl
  rw [relinkGraphEdgesUnder, get_bind_apply, getName_of_linking hc hs.1 hn, (clone_spec hc hn).1, Heap.relinkedFrom, eachOk_append,
    ← hcontrol, hnode, hctrl]
  simp only [bind, StateT.bind]
  rw [hdata]

/-- Making the links of all nodes anew asks for the links between the clones, in order. -/
theorem relinkGraphEdges_eq {l : List NodeId} (hl : ∀ n ∈ l, n ∈ nodes) (hs : Linking h t s) :
    Cmd.eachOk (relinkGraphEdgesUnder namePrefix nodeMap) l s =
      Cmd.eachOk (relinkLink namePrefix h nodeMap) (l.flatMap h.relinkedFrom) s := by
  rw [eachOk_flatMap]
  refine eachOk_congr (I := Linking h t) (fun n hn u hu => relinkGraphEdgesUnder_eq hc hu (hl n hn))
    (fun n hn u ok v hu hr => ?_) hs
  have hkeep : Keeps (Linking h t) (Cmd.eachOk (relinkLink namePrefix h nodeMap) (h.relinkedFrom n)) :=
    Keeps.eachOk fun e he u ok v hu hr => linking_relinkLink hc hu (relinked_of_mem hc (hl n hn) he).1 hr
  exact hkeep u ok v hu hr

/-- Making the links of all nodes anew goes well when the inputs they go to are there, and no data link goes to an input that another
was linked to before. -/
theorem relinkGraphEdges_iff {u : Heap} : Cmd.eachOk (relinkGraphEdgesUnder namePrefix nodeMap) nodes t = some (true, u) ↔
    (∀ e ∈ h.relinked nodes, h.kind e.2 = .inData → (h.anchor e.2).idx < (h.desc (h.owner e.2)).getAllInputsSize) ∧
      ((h.relinked nodes).Pairwise fun e e' => h.kind e'.1 = .outData → e'.2 ≠ e.2) ∧
      u = linkAll ((h.relinked nodes).filterMap (cloneEnds namePrefix h t nodeMap)) t := by
  have hlink := fun e he => relinked_of_mem_relinked hc (e := e) he
  have hsome := fun e he => cloneEnds_isSome hc (hlink e he)
  have hfree : ∀ e ∈ h.relinked nodes, h.kind e.1 = .outData → ∀ d, cloneEnds namePrefix h t nodeMap e = some d →
      t.peers d.2 = [] := by
    intro e he _ d hd
    have hl := hlink e he
    have hmem := (cloneAnchor_spec hc hl.into hl.inOwner (of_cloneEnds hd).2).1
    rw [hc.cloned.peers]
    exact AnchorAux.peers_of_not_made hc.sound ((hc.cloned.fresh _ (clone_spec hc hl.inOwner).2.2).2 _ _ hmem)
  rw [relinkGraphEdges_eq hc (fun n hn => hn) (linking_self hc)]
  refine (eachOk_asks_iff (asksLinks_relinked hc hlink)).trans ⟨?_, ?_⟩
  · rintro ⟨hall, -, hpair, hu⟩
    refine ⟨fun e he => (hsome e he).mp (hall e he), hpair.imp_of_mem fun {e e'} he he' hne hk heq => ?_, hu⟩
    obtain ⟨d, hd⟩ := isSome_iff_exists.mp (hall e he)
    obtain ⟨d', hd'⟩ := isSome_iff_exists.mp (hall e' he')
    have hsnd := (of_cloneEnds hd').2
    rw [heq, (of_cloneEnds hd).2] at hsnd
    exact hne hk d d' hd hd' (Option.some.inj hsnd).symm
  · rintro ⟨hall, hpair, hu⟩
    refine ⟨fun e he => (hsome e he).mpr (hall e he), hfree, hpair.imp_of_mem fun {e e'} he he' hne hk d d' hd hd' heq => ?_, hu⟩
    refine hne hk ?_
    have hsnd := (of_cloneEnds hd').2
    rw [heq] at hsnd
    have hl := hlink e he
    have hl' := hlink e' he'
    exact cloneAnchor_inj hc hl'.into hl.into hl'.inOwner hl.inOwner hsnd (of_cloneEnds hd).2

/-! ## The edges of the clone -/

/-- The links made anew are those from the nodes, but for links from data outputs to control inputs. -/
theorem relinked_eq_filter : h.relinked nodes = (h.linkPairs nodes).filter fun e => !h.isDataControl e := by
  rw [Heap.relinked, Heap.linkPairs, flatMap_assoc, filter_flatMap]
  refine flatMap_congr fun n hn => ?_
  have hlt := (hc.made n hn).1
  rw [filter_flatMap, Heap.relinkedFrom, Heap.outAnchors, flatMap_append]
  congr 1
  · refine flatMap_congr fun a ha => ?_
    have hkind : h.kind a = .outData := hc.sound.laid.kind n hlt .outData a ha
    rw [OutDataAnchor.getPeerInDataAnchors, Anchor.getPeersOf, List.filter_map]
    refine congrArg _ (filter_congr fun b hb => ?_)
    have hin := hc.directed a b hb
    rw [hkind] at hin
    simp only [Function.comp_apply, Heap.isDataControl, hkind, decide_true, Bool.true_and]
    cases hb : h.kind b <;> simp_all [AnchorKind.isIn]
  · have hkind : h.kind (h.node n).outControlAnchor = .outControl :=
      hc.sound.laid.kind n hlt .outControl _ (mem_singleton.mpr rfl)
    have hkept : ((h.peers (h.node n).outControlAnchor).map fun b => ((h.node n).outControlAnchor, b)).filter
        (fun e => !h.isDataControl e) = (h.peers (h.node n).outControlAnchor).map fun b => ((h.node n).outControlAnchor, b) := by
      refine filter_eq_self.mpr fun e he => ?_
      obtain ⟨b, -, rfl⟩ := List.mem_map.mp he
      simp [Heap.isDataControl, hkind]
    rw [show h.anchorsOf n .outControl = [(h.node n).outControlAnchor] from rfl, flatMap_singleton, hkept]

omit hc in
/-- The links from the nodes of a graph that is closed are those into them. -/
theorem edgesInto_perm (hs : h.Sound) (hd : h.Directed) (hmade : ∀ n ∈ nodes, n < h.nodeCount)
    (hinside : ∀ a, h.owner a ∈ nodes → ∀ b ∈ h.peers a, h.owner b ∈ nodes) (hnd : nodes.Nodup) :
    (h.edgesInto nodes).Perm ((h.linkPairs nodes).map fun e => h.edgeName e.1 e.2) := by
  have hcross : ∀ a b, b ∈ h.peers a → h.owner a ∈ nodes → (h.kind a).isIn = false → b ∈ nodes.flatMap h.inAnchors := by
    intro a b hb ha hk
    have hn := hinside a ha b hb
    refine mem_flatMap.mpr ⟨_, hn, (mem_inAnchors hs.laid (hmade _ hn)).mpr ⟨hs.peersHeld a b hb, rfl, ?_⟩⟩
    rw [hd a b hb, hk]
    rfl
  have hback : ∀ b a, a ∈ h.peers b → h.owner b ∈ nodes → (h.kind b).isIn = true → a ∈ nodes.flatMap h.outAnchors := by
    intro b a ha hb hk
    have hn := hinside b hb a ha
    refine mem_flatMap.mpr ⟨_, hn, (mem_outAnchors hs.laid (hmade _ hn)).mpr ⟨hs.peersHeld b a ha, rfl, ?_⟩⟩
    rw [hd b a ha, hk]
    rfl
  have hpairs := hs.symm.pairs_perm (nodup_outAnchors hs.laid hnd hmade)
    (nodup_flatMap_inAnchors hs.laid hnd hmade) (fun a ha b hb => ?_) fun b hb a ha => ?_
  · have hmap := (hpairs.map fun e => h.edgeName e.1 e.2).symm
    rw [map_flatMap] at hmap
    simp only [List.map_map, Function.comp_def] at hmap
    exact hmap
  · obtain ⟨n, hn, ha⟩ := mem_flatMap.mp ha
    obtain ⟨-, rfl, hk⟩ := (mem_outAnchors hs.laid (hmade n hn)).mp ha
    exact hcross a b hb hn hk
  · obtain ⟨n, hn, hb⟩ := mem_flatMap.mp hb
    obtain ⟨-, rfl, hk⟩ := (mem_inAnchors hs.laid (hmade n hn)).mp hb
    exact hback b a ha hn hk

/-- The edges of the clone are those made anew, renamed. -/
theorem edgesInto_clone (hall : ∀ e ∈ h.relinked nodes, h.kind e.2 = .inData →
      (h.anchor e.2).idx < (h.desc (h.owner e.2)).getAllInputsSize) :
    ((linkAll ((h.relinked nodes).filterMap (cloneEnds namePrefix h t nodeMap)) t).edgesInto (t.graph g).nodes).Perm
      ((h.relinked nodes).map fun e => (h.edgeName e.1 e.2).renamed namePrefix) := by
  have hlist := hc.cloned.cloned
  have hmade : ∀ n ∈ (t.graph g).nodes, n < t.nodeCount := by
    intro n hn
    obtain ⟨m, -, hm⟩ := exists_of_forall₂ hlist.flip hn
    exact hm.made
  have hin : ∀ e ∈ h.relinked nodes, ∀ d, cloneEnds namePrefix h t nodeMap e = some d →
      (t.kind d.1).isIn = false ∧ d.2 ∈ (t.graph g).nodes.flatMap t.inAnchors := by
    intro e he d hd
    have hl := relinked_of_mem_relinked hc he
    obtain ⟨ha, hb⟩ := of_cloneEnds hd
    obtain ⟨-, hka, -, -⟩ := cloneAnchor_spec hc hl.out hl.outOwner ha
    obtain ⟨hmem, hkb, hob, -⟩ := cloneAnchor_spec hc hl.into hl.inOwner hb
    obtain ⟨-, hclone, hlisted⟩ := clone_spec hc hl.inOwner
    refine ⟨hka ▸ hl.outKind, mem_flatMap.mpr ⟨_, hlisted, (mem_inAnchors hc.cloned.sound.laid hclone.made).mpr ?_⟩⟩
    refine ⟨⟨?_, ?_⟩, hob, hkb ▸ hl.inKind⟩
    · rw [hob]
      exact hclone.made
    · rwa [hob, hkb]
  have hfree : ∀ n ∈ (t.graph g).nodes, ∀ b ∈ t.inAnchors n, t.peers b = [] := by
    intro n hn b hb
    rw [hc.cloned.peers]
    obtain ⟨⟨-, hmem⟩, howner, -⟩ := (mem_inAnchors hc.cloned.sound.laid (hmade n hn)).mp hb
    rw [howner] at hmem
    exact AnchorAux.peers_of_not_made hc.sound ((hc.cloned.fresh n hn).2 _ b hmem)
  refine (edgesInto_linkAll (nodup_flatMap_inAnchors hc.cloned.sound.laid hc.cloned.nodup hmade) hfree (fun d hd => ?_)
    fun d hd hmem => ?_).trans (.of_eq ?_)
  · obtain ⟨e, he, hed⟩ := mem_filterMap.mp hd
    exact (hin e he d hed).2
  · obtain ⟨e, he, hed⟩ := mem_filterMap.mp hd
    obtain ⟨n, hn, hmem⟩ := mem_flatMap.mp hmem
    obtain ⟨-, -, hk⟩ := (mem_inAnchors hc.cloned.sound.laid (hmade n hn)).mp hmem
    rw [(hin e he d hed).1] at hk
    cases hk
  · rw [map_filterMap]
    refine filterMap_eq_map_iff_forall_eq_some.mpr fun e he => ?_
    have hl := relinked_of_mem_relinked hc he
    obtain ⟨d, hd⟩ := isSome_iff_exists.mp ((cloneEnds_isSome hc hl).mpr (hall e he))
    obtain ⟨ha, hb⟩ := of_cloneEnds hd
    rw [hd, map_some, edgeName_clone hc hl.out hl.into hl.outOwner hl.inOwner ha hb]

end Clones

end ClonedLinksAux

end Metadef
