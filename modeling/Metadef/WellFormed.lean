import Metadef.Lib.Adjacency
import Metadef.GraphUtils

/-!
# Well-formed heaps

A heap is laid out when the anchors each node holds are its own, of the class they are held as, and numbered by their
positions. It is mutually linked when the peer lists are mutual and every peer is held.
-/

namespace Metadef

open List

namespace Heap

/-- The anchors a node holds are anchors of that node and of the class they are held as, the data anchors numbered by
their positions. -/
structure Laid (h : Heap) : Prop where
  made : ∀ n < h.nodeCount, ∀ k, ∀ a ∈ h.anchorsOf n k, a < h.anchorCount
  kind : ∀ n < h.nodeCount, ∀ k, ∀ a ∈ h.anchorsOf n k, h.kind a = k
  owner : ∀ n < h.nodeCount, ∀ k, ∀ a ∈ h.anchorsOf n k, h.owner a = n
  idx : ∀ n < h.nodeCount, ∀ k, k.isData → ∀ (i : Nat) a, (h.anchorsOf n k)[i]? = some a → (h.anchor a).idx = i

/-- Each anchor occurs among the peers of another as often as the other among its own. -/
def MutualLinks (h : Heap) : Prop := Adjacency.Mutual h.peers

/-- Every peer is held by its owner node. -/
def PeersHeld (h : Heap) : Prop := ∀ a, ∀ b ∈ h.peers a, h.Held b

/-- A heap that is laid out and mutually linked. -/
structure Sound (h : Heap) : Prop where
  laid : h.Laid
  symm : h.MutualLinks
  peersHeld : h.PeersHeld

/-- Two heaps agree on everything but peers and descriptors. -/
structure SameLayout (h h' : Heap) : Prop where
  nodeCount : h'.nodeCount = h.nodeCount
  anchorCount : h'.anchorCount = h.anchorCount
  node : h'.node = h.node
  kind : ∀ a, h'.kind a = h.kind a
  owner : ∀ a, h'.owner a = h.owner a
  idx : ∀ a, (h'.anchor a).idx = (h.anchor a).idx

/-! ## Layout -/

theorem SameLayout.refl (h : Heap) : SameLayout h h := ⟨rfl, rfl, rfl, fun _ => rfl, fun _ => rfl, fun _ => rfl⟩

variable {h h' : Heap} {n : NodeId} {a b : AnchorId}

theorem SameLayout.trans {h'' : Heap} (s : SameLayout h h') (t : SameLayout h' h'') : SameLayout h h'' :=
  ⟨t.nodeCount.trans s.nodeCount, t.anchorCount.trans s.anchorCount, t.node.trans s.node,
    fun a => (t.kind a).trans (s.kind a), fun a => (t.owner a).trans (s.owner a), fun a => (t.idx a).trans (s.idx a)⟩

/-- Writing peers leaves the layout. -/
theorem sameLayout_setPeers (h : Heap) (a : AnchorId) (l : List AnchorId) : SameLayout h (h.setPeers a l) :=
  ⟨rfl, rfl, rfl, fun b => setPeers_kind h a b l, fun b => setPeers_owner h a b l, fun b => setPeers_idx h a b l⟩

/-- Writing a descriptor leaves the layout. -/
theorem sameLayout_setOp (h : Heap) (o : OpId) (x : OpDesc) : SameLayout h (h.setOp o x) :=
  ⟨rfl, rfl, rfl, fun _ => rfl, fun _ => rfl, fun _ => rfl⟩

theorem SameLayout.anchorsOf (s : SameLayout h h') (n : NodeId) (k : AnchorKind) : h'.anchorsOf n k = h.anchorsOf n k := by
  cases k <;> simp [Heap.anchorsOf, s.node]

theorem SameLayout.held (s : SameLayout h h') (a : AnchorId) : h'.Held a ↔ h.Held a := by
  simp only [Held, s.owner, s.kind, s.nodeCount, s.anchorsOf]

theorem SameLayout.laid (s : SameLayout h h') (hl : Laid h) : Laid h' where
  made n hn k a ha := by
    rw [s.anchorCount]
    exact hl.made n (s.nodeCount ▸ hn) k a (s.anchorsOf n k ▸ ha)
  kind n hn k a ha := (s.kind a).trans (hl.kind n (s.nodeCount ▸ hn) k a (s.anchorsOf n k ▸ ha))
  owner n hn k a ha := (s.owner a).trans (hl.owner n (s.nodeCount ▸ hn) k a (s.anchorsOf n k ▸ ha))
  idx n hn k hk i a ha := (s.idx a).trans (hl.idx n (s.nodeCount ▸ hn) k hk i a (s.anchorsOf n k ▸ ha))

/-- An anchor listed by a node is held. -/
theorem Laid.held (hl : Laid h) (hn : n < h.nodeCount) {k : AnchorKind} (ha : a ∈ h.anchorsOf n k) : h.Held a := by
  rw [Held, hl.owner n hn k a ha, hl.kind n hn k a ha]
  exact ⟨hn, ha⟩

/-- The anchors of a node of one class are distinct. -/
theorem Laid.nodup (hl : Laid h) (hn : n < h.nodeCount) (k : AnchorKind) : (h.anchorsOf n k).Nodup := by
  cases hk : k.isData with
  | false => cases k <;> simp_all [AnchorKind.isData, Heap.anchorsOf]
  | true =>
    refine nodup_iff_getElem?_ne_getElem?.mpr fun i j hij hj he => ?_
    obtain ⟨a, ha⟩ : ∃ a, (h.anchorsOf n k)[j]? = some a := ⟨_, getElem?_eq_getElem hj⟩
    have h1 := hl.idx n hn k hk j a ha
    have h2 := hl.idx n hn k hk i a (he.trans ha)
    omega

/-- Held anchors that compare equal are one anchor. -/
theorem Laid.eq_of_equal (hl : Laid h) (ha : h.Held a) (hb : h.Held b) (he : Anchor.equal h a b = true) : a = b := by
  simp only [Anchor.equal, Bool.and_eq_true, decide_eq_true_eq, Bool.or_eq_true, Bool.not_eq_true'] at he
  obtain ⟨⟨hk, ho⟩, hidx⟩ := he
  obtain ⟨hn, ha⟩ := ha
  obtain ⟨-, hb⟩ := hb
  rw [hk, ← ho] at hb
  cases hkind : h.kind a with
  | inControl | outControl =>
    rw [hkind] at ha hb
    exact (mem_singleton.mp ha).trans (mem_singleton.mp hb).symm
  | inData | outData =>
    have hdata : (h.kind a).isData = true := by rw [hkind]; rfl
    obtain ⟨i, hi⟩ := getElem?_of_mem ha
    obtain ⟨j, hj⟩ := getElem?_of_mem hb
    have h1 := hl.idx _ hn _ hdata i a hi
    have h2 := hl.idx _ hn _ hdata j b hj
    have hij : i = j := by
      rcases hidx with hidx | hidx
      · simp [hdata] at hidx
      · omega
    subst hij
    exact Option.some.inj (hi.symm.trans hj)

theorem equal_refl (h : Heap) (a : AnchorId) : Anchor.equal h a a = true := by
  simp [Anchor.equal]

/-! ## Links -/

/-- The peers after a link. -/
theorem linked_peers (h : Heap) (a b : AnchorId) :
    (Anchor.linked h a b).peers = Adjacency.push (Adjacency.push h.peers a b) b a := by
  funext x
  simp only [Anchor.linked, Adjacency.push, setPeers_peers, Function.update_apply]

theorem sameLayout_linked (h : Heap) (a b : AnchorId) : SameLayout h (Anchor.linked h a b) :=
  (sameLayout_setPeers h a _).trans (sameLayout_setPeers _ b _)

/-- An anchor with a peer is held when links are mutual and peers are held. -/
theorem MutualLinks.held (hm : h.MutualLinks) (hp : h.PeersHeld) (hb : b ∈ h.peers a) : h.Held a :=
  hp b a (hm.mem hb)

/-- What holds of the links of the anchors made holds of all links. -/
theorem Sound.forall_peers (s : Sound h) {P : AnchorId → AnchorId → Prop}
    (hP : ∀ a < h.anchorCount, ∀ b ∈ h.peers a, P a b) : ∀ a, ∀ b ∈ h.peers a, P a b := by
  intro a b hb
  obtain ⟨hn, ha⟩ := s.symm.held s.peersHeld hb
  exact hP a (s.laid.made _ hn _ a ha) b hb

/-- Finding an equal of a held anchor among held anchors finds that anchor. -/
theorem Laid.getElem?_of_findIdx? (hl : Laid h) {l : List AnchorId} {i : Nat}
    (ha : h.Held a) (hheld : ∀ b ∈ l, h.Held b) (hi : l.findIdx? (Anchor.equal h a) = some i) : l[i]? = some a := by
  obtain ⟨hlt, heq, -⟩ := findIdx?_eq_some_iff_getElem.mp hi
  rw [getElem?_eq_getElem hlt, ← hl.eq_of_equal ha (hheld _ (getElem_mem hlt)) heq]

/-- Edits of the peer lists that keep them mutual and add held peers only keep a heap sound. -/
theorem Sound.of_peers (s : Sound h) (hs : SameLayout h h') (hm : h'.MutualLinks)
    (hp : ∀ a, ∀ b ∈ h'.peers a, h.Held b) : Sound h' :=
  ⟨hs.laid s.laid, hm, fun a b hb => (hs.held b).mpr (hp a b hb)⟩

/-- A heap with the anchors of a sound one is sound. -/
theorem Sound.of_anchors (s : Sound h) (hn : h'.nodeCount = h.nodeCount) (hc : h'.anchorCount = h.anchorCount)
    (hl : h'.anchorsOf = h.anchorsOf) (ha : h'.anchor = h.anchor) : Sound h' := by
  have hkind : h'.kind = h.kind := by
    funext a
    unfold Heap.kind
    rw [ha]
  have howner : h'.owner = h.owner := by
    funext a
    unfold Heap.owner
    rw [ha]
  have hpeers : h'.peers = h.peers := by
    funext a
    unfold Heap.peers
    rw [ha]
  refine ⟨⟨fun n hlt k a hm => ?_, fun n hlt k a hm => ?_, fun n hlt k a hm => ?_, fun n hlt k hk i a hi => ?_⟩, ?_, ?_⟩
  · rw [hc]
    exact s.laid.made n (hn ▸ hlt) k a (hl ▸ hm)
  · rw [hkind]
    exact s.laid.kind n (hn ▸ hlt) k a (hl ▸ hm)
  · rw [howner]
    exact s.laid.owner n (hn ▸ hlt) k a (hl ▸ hm)
  · rw [ha]
    exact s.laid.idx n (hn ▸ hlt) k hk i a (hl ▸ hi)
  · rw [MutualLinks, hpeers]
    exact s.symm
  · intro a b hb
    unfold Held
    rw [hn, howner, hkind, hl]
    exact s.peersHeld a b (hpeers ▸ hb)

/-- Writing a descriptor keeps a heap sound. -/
theorem Sound.setOp (s : Sound h) (o : OpId) (x : OpDesc) : Sound (h.setOp o x) :=
  s.of_peers (sameLayout_setOp h o x) s.symm s.peersHeld

/-- Linking held anchors keeps a heap sound. -/
theorem Sound.linked (s : Sound h) (ha : h.Held a) (hb : h.Held b) : Sound (Anchor.linked h a b) := by
  refine s.of_peers (sameLayout_linked h a b) ?_ fun x y hy => ?_
  · rw [MutualLinks, linked_peers]
    exact s.symm.join a b
  · rw [linked_peers, Adjacency.mem_push, Adjacency.mem_push] at hy
    rcases hy with (hy | ⟨-, rfl⟩) | ⟨-, rfl⟩
    · exact s.peersHeld x y hy
    · exact hb
    · exact ha

end Heap

end Metadef
