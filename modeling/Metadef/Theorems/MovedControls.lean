import Metadef.Lemmas.MovedPeers
import Metadef.Theorems.LinkSymmetry

/-!
# Moving the control edges of a node

`MoveInCtrlEdges` and `MoveOutCtrlEdges` copy control edges node by node and then take every link from the old anchor. The nodes
are read by functions that leave some kinds of edges out and add others, and are told apart from those of the new node only.
-/

namespace Metadef

open List

open GraphUtils

/-- The edges of an anchor are now those of another: each node linked to the old one is linked to the new one, no link was
made twice, and all other links are as they were. -/
structure Heap.LinksMoved (h h' : Heap) (old new : AnchorId) : Prop where
  sound : h'.Sound
  same : h.SameButPeers h'
  unlinked : h'.peers old = []
  moved : ∀ a ∈ h.peers old, ∃ b ∈ h'.peers new, h.owner b = h.owner a
  kept : ∀ b, (h.peers new).count b ≤ (h'.peers new).count b
  single : ∀ b, (h'.peers new).count b ≤ max 1 ((h.peers new).count b)
  only : ∀ b ∈ h'.peers new, b ∈ h.peers new ∨ ∃ a ∈ h.peers old, h.owner a = h.owner b
  others : ∀ a b, a ≠ old → a ≠ new → b ≠ old → b ≠ new → (h'.peers a).count b = (h.peers a).count b

namespace Heap

variable (h : Heap) (src dst : NodeId)

/-- Moving the edges into a control input returns with success, and they are moved. -/
def MovesIn : Prop :=
  ∃ h', moveInCtrlEdges (some src) (some dst) h = some (true, h') ∧
    h.LinksMoved h' (h.node src).inControlAnchor (h.node dst).inControlAnchor

/-- Moving the edges out of a control output returns with success, and they are moved. -/
def MovesOut : Prop :=
  ∃ h', moveOutCtrlEdges (some src) (some dst) h = some (true, h') ∧
    h.LinksMoved h' (h.node src).outControlAnchor (h.node dst).outControlAnchor

/-- Each node with an edge into the control input has one into that of the other node or is among its control sources, and no
control source that is none of the other node's has two edges. -/
structure MovableIn : Prop where
  sources : ∀ a ∈ h.peers (h.node src).inControlAnchor,
    (∃ b ∈ h.peers (h.node dst).inControlAnchor, h.owner b = h.owner a) ∨ h.owner a ∈ Node.getInControlNodes h src
  once : ((Node.getInControlNodes h src).filter (· ∉ Node.getInControlNodes h dst)).Nodup

/-- The nodes the data outputs of a node control. -/
def dataControlled (n : NodeId) : List NodeId :=
  ((h.node n).outDataAnchors.flatMap (OutDataAnchor.getPeerInControlAnchors h)).map h.owner

/-- The other node controls what the data outputs do, a node with an edge from the control output has one from that of the other
node or is not controlled by the other node at all, and no such node has two edges. -/
structure MovableOut : Prop where
  data : ∀ n ∈ h.dataControlled src, n ∈ Node.getOutControlNodes h dst
  targets : ∀ a ∈ h.peers (h.node src).outControlAnchor,
    (∃ b ∈ h.peers (h.node dst).outControlAnchor, h.owner b = h.owner a) ∨ h.owner a ∉ Node.getOutControlNodes h dst
  once : (((h.peers (h.node src).outControlAnchor).map h.owner).filter (· ∉ Node.getOutControlNodes h dst)).Nodup

end Heap

namespace MovedControlsAux

open Cmd LinkListsAux MovedPeersAux

variable {h h' : Heap} {old new : AnchorId} {g : NodeId → AnchorId} {l : List NodeId}

/-- Which links a move has to make. -/
structure Suits (h : Heap) (old new : AnchorId) (l : List NodeId) : Prop where
  moved : ∀ a ∈ h.peers old, (∃ b ∈ h.peers new, h.owner b = h.owner a) ∨ h.owner a ∈ l
  single : l.Nodup
  only : ∀ n ∈ l, ∃ a ∈ h.peers old, h.owner a = n

/-- Where the new anchor took links to the control anchors of nodes and the old one lost all links, the edges are moved exactly
when the nodes are those to move to. -/
theorem linksMoved_iff (hs : h'.Sound) (hsame : h.SameButPeers h') (hold : h'.peers old = [])
    (hnew : h'.peers new = h.peers new ++ l.map g) (hg : ∀ n ∈ l, h.owner (g n) = n ∧ g n ∉ h.peers new)
    (hothers : ∀ a b, a ≠ old → a ≠ new → b ≠ old → b ≠ new → (h'.peers a).count b = (h.peers a).count b) :
    h.LinksMoved h' old new ↔ Suits h old new l := by
  have howner : ∀ {a}, (∃ b ∈ h'.peers new, h.owner b = h.owner a) ↔ (∃ b ∈ h.peers new, h.owner b = h.owner a) ∨
    h.owner a ∈ l := by
    intro a
    simp only [hnew, mem_append, List.mem_map]
    constructor
    · rintro ⟨b, hb | ⟨n, hn, rfl⟩, hba⟩
      · exact .inl ⟨b, hb, hba⟩
      · exact .inr (hba ▸ ((hg n hn).1).symm ▸ hn)
    · rintro (⟨b, hb, hba⟩ | hn)
      · exact ⟨b, .inl hb, hba⟩
      · exact ⟨g (h.owner a), .inr ⟨_, hn, rfl⟩, (hg _ hn).1⟩
  have hinj : ∀ {m n}, m ∈ l → n ∈ l → g m = g n → m = n := by
    intro m n hm hn hmn
    rw [← (hg m hm).1, hmn, (hg n hn).1]
  constructor
  · rintro ⟨-, -, -, hmoved, -, hsingle, honly, -⟩
    refine ⟨fun a ha => howner.mp (hmoved a ha), ?_, fun n hn => ?_⟩
    · refine List.Nodup.of_map g (nodup_iff_count_le_one.mpr fun b => ?_)
      by_cases hb : b ∈ l.map g
      · obtain ⟨n, hn, rfl⟩ := List.mem_map.mp hb
        have hle := hsingle (g n)
        rw [hnew, count_append, count_eq_zero_of_not_mem (hg n hn).2] at hle
        omega
      · rw [count_eq_zero_of_not_mem hb]
        omega
    · have hmem : g n ∈ h'.peers new := by
        rw [hnew]
        exact mem_append_right _ (mem_map_of_mem hn)
      obtain ⟨a, ha, hag⟩ := (honly (g n) hmem).resolve_left (hg n hn).2
      exact ⟨a, ha, hag.trans (hg n hn).1⟩
  · rintro ⟨hmoved, hsingle, honly⟩
    have hnodup : (l.map g).Nodup := hsingle.map_on fun m hm n hn => hinj hm hn
    refine ⟨hs, hsame, hold, fun a ha => howner.mpr (hmoved a ha), fun b => ?_, fun b => ?_, fun b hb => ?_, hothers⟩
    · rw [hnew, count_append]
      omega
    · rw [hnew, count_append]
      by_cases hb : b ∈ l.map g
      · obtain ⟨n, hn, rfl⟩ := List.mem_map.mp hb
        have := nodup_iff_count_le_one.mp hnodup (g n)
        rw [count_eq_zero_of_not_mem (hg n hn).2]
        omega
      · rw [count_eq_zero_of_not_mem hb]
        omega
    · rw [hnew, mem_append] at hb
      refine hb.imp_right fun hb => ?_
      obtain ⟨n, hn, rfl⟩ := List.mem_map.mp hb
      obtain ⟨a, ha, han⟩ := honly n hn
      exact ⟨a, ha, han.trans (hg n hn).1.symm⟩

/-! ## The runs -/

/-- Links between an anchor and others add the others to its peers. -/
theorem addedPeers_map {e : NodeId → AnchorId × AnchorId} (he : ∀ n ∈ l, e n = (g n, new) ∨ e n = (new, g n))
    (hg : ∀ n ∈ l, g n ≠ new) : addedPeers (l.map e) new = l.map g := by
  induction l with
  | nil => rfl
  | cons n l ih =>
    have hn := hg n mem_cons_self
    have hfirst : addedPeers [e n] new = [g n] := by
      rcases he n mem_cons_self with h₁ | h₁ <;> simp [addedPeers, h₁, hn]
    rw [map_cons, ← singleton_append, addedPeers_append, hfirst,
      ih (fun m hm => he m (mem_cons_of_mem n hm)) fun m hm => hg m (mem_cons_of_mem n hm)]
    rfl

/-- Linking an anchor to others and then unlinking all peers of an anchor of its side. -/
theorem unlinkAll_linkAll {e : NodeId → AnchorId × AnchorId} (hs : h.Sound) (hd : h.Directed) (hne : old ≠ new)
    (hkind : (h.kind old).isIn = (h.kind new).isIn) (hnew : h.Held new)
    (hg : ∀ n ∈ l, h.Held (g n) ∧ (h.kind (g n)).isIn = !(h.kind new).isIn)
    (he : ∀ n ∈ l, e n = (g n, new) ∨ e n = (new, g n)) :
    ∃ h', Anchor.unlinkAll old (linkAll (l.map e) h) = some ((), h') ∧ h'.Sound ∧ h.SameButPeers h' ∧ h'.peers old = [] ∧
      h'.peers new = h.peers new ++ l.map g ∧
      ∀ a b, a ≠ old → a ≠ new → b ≠ old → b ≠ new → (h'.peers a).count b = (h.peers a).count b := by
  have hgne : ∀ n ∈ l, ∀ a, (h.kind a).isIn = (h.kind new).isIn → g n ≠ a := by
    rintro n hn a ha rfl
    have := (hg n hn).2
    rw [ha] at this
    cases hk : (h.kind new).isIn <;> simp [hk] at this
  have hends : ∀ {a b}, (a, b) ∈ l.map e → ∃ n ∈ l, (g n = a ∧ new = b) ∨ (new = a ∧ g n = b) := by
    intro a b hab
    obtain ⟨n, hn, heq⟩ := List.mem_map.mp hab
    rcases he n hn with h₁ | h₁
    · exact ⟨n, hn, .inl (Prod.mk.inj (h₁.symm.trans heq))⟩
    · exact ⟨n, hn, .inr (Prod.mk.inj (h₁.symm.trans heq))⟩
  have hadded : addedPeers (l.map e) old = [] := by
    refine eq_nil_iff_forall_not_mem.mpr fun b hb => ?_
    rcases mem_addedPeers.mp hb with hab | hab
    · obtain ⟨n, hn, ⟨h₁, -⟩ | ⟨h₁, -⟩⟩ := hends hab
      · exact hgne n hn old hkind h₁
      · exact hne h₁.symm
    · obtain ⟨n, hn, ⟨-, h₁⟩ | ⟨-, h₁⟩⟩ := hends hab
      · exact hne h₁.symm
      · exact hgne n hn old hkind h₁
  have hsound : (linkAll (l.map e) h).Sound := by
    refine sound_linkAll hs fun d hmem => ?_
    obtain ⟨n, hn, ⟨h₁, h₂⟩ | ⟨h₁, h₂⟩⟩ := hends (a := d.1) (b := d.2) hmem
    · exact ⟨h₁ ▸ (hg n hn).1, h₂ ▸ hnew⟩
    · exact ⟨h₁ ▸ hnew, h₂ ▸ (hg n hn).1⟩
  have hself : old ∉ (linkAll (l.map e) h).peers old := by
    rw [peers_linkAll_eq, hadded, append_nil]
    exact not_mem_peers_of_side hd rfl
  obtain ⟨h', hr, hs', hsame, hpeers⟩ := unlinkAll_filters hsound hself
  refine ⟨h', hr, hs', SameButPeers.trans (SameButPeers.linkAll _ h) hsame, by rw [hpeers, if_pos rfl], ?_,
    fun a b ha ha' hb hb' => ?_⟩
  · rw [hpeers, if_neg hne.symm, peers_linkAll_eq, addedPeers_map he fun n hn => hgne n hn new rfl]
    refine filter_eq_self.mpr fun b hb => ?_
    have hbo : b ≠ old := by
      rintro rfl
      rcases mem_append.mp hb with hb | hb
      · exact not_mem_peers_of_side hd hkind hb
      · obtain ⟨n, hn, h₁⟩ := List.mem_map.mp hb
        exact hgne n hn b hkind h₁
    simpa using hbo
  · have hnone : b ∉ addedPeers (l.map e) a := by
      intro hmem
      rcases mem_addedPeers.mp hmem with hab | hab
      · obtain ⟨n, -, ⟨-, h₁⟩ | ⟨h₁, -⟩⟩ := hends hab
        · exact hb' h₁.symm
        · exact ha' h₁.symm
      · obtain ⟨n, -, ⟨-, h₁⟩ | ⟨h₁, -⟩⟩ := hends hab
        · exact ha' h₁.symm
        · exact hb' h₁.symm
    rw [hpeers, if_neg ha, count_filter (by simpa using hb), peers_linkAll_eq, count_append,
      count_eq_zero_of_not_mem hnone, Nat.add_zero]

/-- A loop of control edges makes them all. -/
theorem eachOk_addControlEdge (e : NodeId → AnchorId × AnchorId) :
    Cmd.eachOk (fun n => addControlEdge (some (e n).1) (some (e n).2)) l h = some (true, linkAll (l.map e) h) :=
  eachOk_linkAll fun _ _ _ _ => rfl

section
variable {src dst : NodeId}

/-- The nodes `CopyInCtrlEdges` links, and those `CopyOutCtrlEdges` links. -/
def copiedIn (h : Heap) (src dst : NodeId) : List NodeId :=
  (Node.getInControlNodes h src).filter (· ∉ Node.getInControlNodes h dst)

def copiedOut (h : Heap) (src dst : NodeId) : List NodeId :=
  (Node.getOutControlNodes h src).filter (· ∉ Node.getOutControlNodes h dst)

theorem copyInCtrlEdges_eq : copyInCtrlEdges (some src) (some dst) h =
    some (true, linkAll ((copiedIn h src dst).map fun n => ((h.node n).outControlAnchor, (h.node dst).inControlAnchor)) h) := by
  simp only [copyInCtrlEdges, get_bind_apply]
  split
  · rename_i hnil
    rw [copiedIn, List.isEmpty_iff.mp hnil]
    rfl
  · exact eachOk_addControlEdge fun n => ((h.node n).outControlAnchor, (h.node dst).inControlAnchor)

theorem copyOutCtrlEdges_eq : copyOutCtrlEdges (some src) (some dst) h =
    some (true, linkAll ((copiedOut h src dst).map fun n => ((h.node dst).outControlAnchor, (h.node n).inControlAnchor)) h) := by
  simp only [copyOutCtrlEdges, get_bind_apply]
  split
  · rename_i hnil
    rw [copiedOut, List.isEmpty_iff.mp hnil]
    rfl
  · exact eachOk_addControlEdge fun n => ((h.node dst).outControlAnchor, (h.node n).inControlAnchor)

variable (hs : h.Sound)
include hs

/-- The control sources of a node are the owners of the control outputs linked to its control input. -/
theorem mem_getInControlNodes {m n : NodeId} : m ∈ Node.getInControlNodes h n ↔
    m < h.nodeCount ∧ (h.node m).outControlAnchor ∈ h.peers (h.node n).inControlAnchor := by
  simp only [Node.getInControlNodes, InControlAnchor.getPeerOutControlAnchors, Anchor.getPeersOf, List.mem_map, mem_filter,
    decide_eq_true_eq]
  constructor
  · rintro ⟨a, ⟨ha, hk⟩, rfl⟩
    have hheld := hs.peersHeld _ a ha
    have heq : a = (h.node (h.owner a)).outControlAnchor := eq_controlAnchor hheld (by rw [hk]; rfl)
    exact ⟨hheld.1, heq ▸ ha⟩
  · rintro ⟨hm, ha⟩
    obtain ⟨-, hk, howner⟩ := controlAnchor (k := .outControl) hs hm rfl
    exact ⟨_, ⟨ha, hk⟩, howner⟩

/-- The nodes a node controls are the owners of its control output's peers, and those its outputs control. -/
theorem lt_of_mem_getOutControlNodes {m n : NodeId} (hm : m ∈ Node.getOutControlNodes h n) : m < h.nodeCount := by
  simp only [Node.getOutControlNodes, OutDataAnchor.getPeerInControlAnchors, Anchor.getPeersOf, mem_append, List.mem_map,
    mem_flatMap, mem_filter] at hm
  rcases hm with ⟨a, ⟨o, -, ha, -⟩, rfl⟩ | ⟨a, ha, rfl⟩
  · exact (hs.peersHeld o a ha).1
  · exact (hs.peersHeld _ a ha).1

/-- `CopyInCtrlEdges` links the nodes to move exactly when the condition holds. -/
theorem suits_copiedIn : Suits h (h.node src).inControlAnchor (h.node dst).inControlAnchor (copiedIn h src dst) ↔
    h.MovableIn src dst := by
  have hmem : ∀ {n}, n ∈ copiedIn h src dst ↔ n ∈ Node.getInControlNodes h src ∧ n ∉ Node.getInControlNodes h dst := by simp
    [copiedIn]
  have hanchor : ∀ {m n}, m ∈ Node.getInControlNodes h n → ∃ b ∈ h.peers (h.node n).inControlAnchor, h.owner b = m := fun hm =>
    have ⟨hlt, ha⟩ := (mem_getInControlNodes hs).mp hm
    ⟨_, ha, (controlAnchor (k := .outControl) hs hlt rfl).2.2⟩
  constructor
  · rintro ⟨hmoved, hsingle, -⟩
    exact ⟨fun a ha => (hmoved a ha).imp_right fun hl => (hmem.mp hl).1, hsingle⟩
  · rintro ⟨hsources, honce⟩
    refine ⟨fun a ha => ?_, honce, fun n hn => hanchor (hmem.mp hn).1⟩
    by_cases hdst : h.owner a ∈ Node.getInControlNodes h dst
    · exact .inl (hanchor hdst)
    · exact (hsources a ha).imp_right fun hsrc => hmem.mpr ⟨hsrc, hdst⟩

omit hs in
/-- `CopyOutCtrlEdges` links the nodes to move exactly when the condition holds. -/
theorem suits_copiedOut : Suits h (h.node src).outControlAnchor (h.node dst).outControlAnchor (copiedOut h src dst) ↔
    h.MovableOut src dst := by
  have hsplit : copiedOut h src dst = (h.dataControlled src).filter (· ∉ Node.getOutControlNodes h dst) ++
      ((h.peers (h.node src).outControlAnchor).map h.owner).filter (· ∉ Node.getOutControlNodes h dst) := filter_append ..
  have howner : ∀ {a}, a ∈ h.peers (h.node src).outControlAnchor →
      (h.owner a ∈ copiedOut h src dst ↔ h.owner a ∉ Node.getOutControlNodes h dst) := by
    intro a ha
    rw [copiedOut, mem_filter, decide_eq_true_eq]
    exact and_iff_right (mem_append_right _ (mem_map_of_mem ha))
  constructor
  · rintro ⟨hmoved, hsingle, honly⟩
    rw [hsplit] at hsingle
    obtain ⟨-, honce, hdisjoint⟩ := nodup_append.mp hsingle
    refine ⟨fun n hn => ?_, fun a ha => (hmoved a ha).imp_right (howner ha).mp, honce⟩
    -- a node an output controls that is linked anew would be linked a second time, or without an edge to move
    by_contra hnot
    have hfirst : n ∈ (h.dataControlled src).filter (· ∉ Node.getOutControlNodes h dst) :=
      mem_filter.mpr ⟨hn, decide_eq_true hnot⟩
    obtain ⟨a, ha, rfl⟩ := honly n (hsplit ▸ mem_append_left _ hfirst)
    exact hdisjoint _ hfirst _ (mem_filter.mpr ⟨mem_map_of_mem ha, decide_eq_true hnot⟩) rfl
  · rintro ⟨hdata, htargets, honce⟩
    have hnone : (h.dataControlled src).filter (· ∉ Node.getOutControlNodes h dst) = [] :=
      filter_eq_nil_iff.mpr fun n hn => by simpa using hdata n hn
    rw [hnone, nil_append] at hsplit
    refine ⟨fun a ha => (htargets a ha).imp_right (howner ha).mpr, hsplit ▸ honce, fun n hn => ?_⟩
    rw [hsplit] at hn
    obtain ⟨a, ha, rfl⟩ := List.mem_map.mp (mem_filter.mp hn).1
    exact ⟨a, ha, rfl⟩

end

end MovedControlsAux

open MovedControlsAux MovedPeersAux LinkListsAux in
/-- Moving the control edges of a node to another keeps each of them exactly where the nodes it reads are those with an edge to
move, each once. -/
theorem movesControls_iff (h : Heap) (src dst : NodeId) (hs : h.Sound) (hd : h.Directed) (hsrc : src < h.nodeCount)
    (hdst : dst < h.nodeCount) (hne : src ≠ dst) :
    (h.MovesIn src dst ↔ h.MovableIn src dst) ∧ (h.MovesOut src dst ↔ h.MovableOut src dst) := by
  constructor
  · obtain ⟨-, hko, howner⟩ := controlAnchor (k := .inControl) hs hsrc rfl
    obtain ⟨hheld, hkn, howner'⟩ := controlAnchor (k := .inControl) hs hdst rfl
    have hlt : ∀ n ∈ copiedIn h src dst, n < h.nodeCount := fun n hn => ((mem_getInControlNodes hs).mp (mem_filter.mp hn).1).1
    obtain ⟨h', hr, hs', hsame, hold, hnew, hothers⟩ := unlinkAll_linkAll (l := copiedIn h src dst)
      (g := fun n => (h.node n).outControlAnchor) (e := fun n => ((h.node n).outControlAnchor, (h.node dst).inControlAnchor))
      hs hd (show (h.node src).inControlAnchor ≠ (h.node dst).inControlAnchor from fun e => hne (howner.symm.trans (e ▸ howner')))
      (by rw [hko, hkn]) hheld
      (fun n hn => ⟨(controlAnchor (k := .outControl) hs (hlt n hn) rfl).1, by
        rw [(controlAnchor (k := .outControl) hs (hlt n hn) rfl).2.1, hkn]
        rfl⟩) fun _ _ => .inl rfl
    have hrun : moveInCtrlEdges (some src) (some dst) h = some (true, h') := by
      simp only [moveInCtrlEdges]
      rw [Cmd.bind_of_eq copyInCtrlEdges_eq]
      simp only [Bool.not_true, Bool.false_eq_true, if_false, Cmd.get_bind_apply, (SameButPeers.linkAll _ h).node]
      rw [Cmd.bind_of_eq hr]
      rfl
    rw [← suits_copiedIn hs, ← linksMoved_iff hs' hsame hold hnew (fun n hn => ?_) hothers]
    · constructor
      · rintro ⟨t, ht, hmoved⟩
        obtain rfl : h' = t := (Prod.mk.inj (Option.some.inj (hrun.symm.trans ht))).2
        exact hmoved
      · exact fun hmoved => ⟨h', hrun, hmoved⟩
    · refine ⟨(controlAnchor (k := .outControl) hs (hlt n hn) rfl).2.2, fun hmem => ?_⟩
      have := (mem_filter.mp hn).2
      simp only [decide_eq_true_eq] at this
      exact this ((mem_getInControlNodes hs).mpr ⟨hlt n hn, hmem⟩)
  · obtain ⟨-, hko, howner⟩ := controlAnchor (k := .outControl) hs hsrc rfl
    obtain ⟨hheld, hkn, howner'⟩ := controlAnchor (k := .outControl) hs hdst rfl
    have hlt : ∀ n ∈ copiedOut h src dst, n < h.nodeCount := fun n hn => lt_of_mem_getOutControlNodes hs (mem_filter.mp hn).1
    obtain ⟨h', hr, hs', hsame, hold, hnew, hothers⟩ := unlinkAll_linkAll (l := copiedOut h src dst)
      (g := fun n => (h.node n).inControlAnchor) (e := fun n => ((h.node dst).outControlAnchor, (h.node n).inControlAnchor))
      hs hd (show (h.node src).outControlAnchor ≠ (h.node dst).outControlAnchor from fun e => hne (howner.symm.trans (e ▸ howner')))
      (by rw [hko, hkn]) hheld
      (fun n hn => ⟨(controlAnchor (k := .inControl) hs (hlt n hn) rfl).1, by
        rw [(controlAnchor (k := .inControl) hs (hlt n hn) rfl).2.1, hkn]
        rfl⟩) fun _ _ => .inr rfl
    have hrun : moveOutCtrlEdges (some src) (some dst) h = some (true, h') := by
      simp only [moveOutCtrlEdges]
      rw [Cmd.bind_of_eq copyOutCtrlEdges_eq]
      simp only [Bool.not_true, Bool.false_eq_true, if_false, Cmd.get_bind_apply, (SameButPeers.linkAll _ h).node]
      rw [Cmd.bind_of_eq hr]
      rfl
    rw [← suits_copiedOut, ← linksMoved_iff hs' hsame hold hnew (fun n hn => ?_) hothers]
    · constructor
      · rintro ⟨t, ht, hmoved⟩
        obtain rfl : h' = t := (Prod.mk.inj (Option.some.inj (hrun.symm.trans ht))).2
        exact hmoved
      · exact fun hmoved => ⟨h', hrun, hmoved⟩
    · obtain ⟨-, -, hown⟩ := controlAnchor (k := .inControl) hs (hlt n hn) rfl
      refine ⟨hown, fun hmem => ?_⟩
      have := (mem_filter.mp hn).2
      simp only [decide_eq_true_eq] at this
      exact this (mem_append_right _ (List.mem_map.mpr ⟨_, hmem, hown⟩))

namespace MovedControlsWitness

/-- A source with an output, two nodes, and a node behind them. Control anchors come first. -/
def nodes : List LinkCall :=
  [.newOp { opDef := { name := "a", type := "Data" }, outputsDesc := [{}] }, .newNode 0,
    .newOp { opDef := { name := "n", type := "NoOp" } }, .newNode 1, .newOp { opDef := { name := "m", type := "NoOp" } },
      .newNode 2,
    .newOp { opDef := { name := "b", type := "NoOp" } }, .newNode 3]

/-- The source controls the second node by its control output, and that the last. -/
def controlled : Heap := (LinkCall.runAll (nodes ++
    [.addControlEdge (some 1) (some 3), .addControlEdge (some 4) (some 7)])).getD .empty

/-- The source controls the second node by its data output. -/
def dataControlled : Heap := (LinkCall.runAll (nodes ++ [.addDataControlEdge (some 2) (some 3)])).getD .empty

theorem sound_controlled : controlled.Sound :=
  sound_runAll (nodes ++ [.addControlEdge (some 1) (some 3), .addControlEdge (some 4) (some 7)]) controlled (by decide +kernel) rfl

theorem sound_dataControlled : dataControlled.Sound :=
  sound_runAll (nodes ++ [.addDataControlEdge (some 2) (some 3)]) dataControlled (by decide +kernel) rfl

theorem movesControls_controlled : controlled.MovesIn 1 2 ∧ controlled.MovesOut 1 2 :=
  have hiff := movesControls_iff controlled 1 2 sound_controlled (sound_controlled.forall_peers (by decide +kernel))
    (by decide +kernel)
    (by decide +kernel) (by decide)
  ⟨hiff.1.mpr ⟨by decide +kernel, by decide +kernel⟩, hiff.2.mpr ⟨by decide +kernel, by decide +kernel, by decide +kernel⟩⟩

/-- The edge from the data output is dropped, and nothing takes its place. -/
theorem movesControls_false :
    ¬ ∀ (h : Heap) (src dst : NodeId), h.Sound → h.Directed → src < h.nodeCount → dst < h.nodeCount → src ≠ dst →
      h.MovesIn src dst ∧ h.MovesOut src dst := by
  intro hall
  obtain ⟨⟨h', hr, hmoved⟩, -⟩ := hall dataControlled 1 2 sound_dataControlled
    (sound_dataControlled.forall_peers (by decide +kernel))
    (by decide +kernel) (by decide +kernel) (by decide)
  obtain ⟨t, ht, hnone⟩ : ∃ t, moveInCtrlEdges (some 1) (some 2) dataControlled = some (true, t) ∧ (t.peers 5 == []) = true :=
    Cmd.exists_of_any (by decide +kernel)
  obtain rfl : h' = t := (Prod.mk.inj (Option.some.inj (hr.symm.trans ht))).2
  obtain ⟨b, hb, -⟩ := hmoved.moved 2 (by decide +kernel)
  have hcontrol : (dataControlled.node 2).inControlAnchor = 5 := by decide +kernel
  rw [hcontrol, beq_iff_eq.mp hnone] at hb
  cases hb

end MovedControlsWitness

end Metadef
