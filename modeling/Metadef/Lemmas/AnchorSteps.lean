import Metadef.Lemmas.LinkSteps

/-!
# Making and dropping anchors

A new node and a new data anchor keep a heap sound, and so does dropping data anchors without peers.
-/

namespace Metadef

open List Heap

namespace AnchorAux

open Cmd

variable {h h' : Heap} {n n' : NodeId} {k k' : AnchorKind}

/-! ## Lists of anchors -/

/-- Writing the data anchors of one class leaves those of every other node and class. -/
theorem anchorsOf_setAnchorsOf (hk : k.isData) (l : List AnchorId) :
    (h.setAnchorsOf n k l).anchorsOf n' k' = if n' = n ∧ k' = k then l else h.anchorsOf n' k' := by
  by_cases hn : n' = n
  · subst hn
    cases k <;> first | (cases hk; done) | skip
    all_goals cases k' <;> simp [Heap.setAnchorsOf, Heap.anchorsOf]
  · cases k <;> cases k' <;> simp [Heap.setAnchorsOf, Heap.anchorsOf, hn]

@[simp] theorem setAnchorsOf_nodeCount (l : List AnchorId) : (h.setAnchorsOf n k l).nodeCount = h.nodeCount := by
  cases k <;> rfl

@[simp] theorem setAnchorsOf_anchorCount (l : List AnchorId) : (h.setAnchorsOf n k l).anchorCount = h.anchorCount := by
  cases k <;> rfl

@[simp] theorem setAnchorsOf_anchor (l : List AnchorId) : (h.setAnchorsOf n k l).anchor = h.anchor := by
  cases k <;> rfl

/-- A list of anchors may be replaced: the anchors of every other node and class stay as they are, and those of the new
list are of its node and class and numbered by position. -/
theorem laid_of_replaced (hl : h.Laid) (hn : h'.nodeCount = h.nodeCount) (hc : h.anchorCount ≤ h'.anchorCount)
    (hother : ∀ n' < h.nodeCount, ∀ k', (n' = n ∧ k' = k → False) → h'.anchorsOf n' k' = h.anchorsOf n' k' ∧
      ∀ a ∈ h.anchorsOf n' k', h'.anchor a = h.anchor a)
    (hthis : ∀ a ∈ h'.anchorsOf n k, a < h'.anchorCount ∧ h'.kind a = k ∧ h'.owner a = n)
    (hidx : k.isData → ∀ (i : Nat) a, (h'.anchorsOf n k)[i]? = some a → (h'.anchor a).idx = i) : h'.Laid where
  made m hm j a ha := by
    by_cases he : m = n ∧ j = k
    · obtain ⟨rfl, rfl⟩ := he
      exact (hthis a ha).1
    · rw [(hother m (hn ▸ hm) j he).1] at ha
      exact Nat.lt_of_lt_of_le (hl.made m (hn ▸ hm) j a ha) hc
  kind m hm j a ha := by
    by_cases he : m = n ∧ j = k
    · obtain ⟨rfl, rfl⟩ := he
      exact (hthis a ha).2.1
    · rw [(hother m (hn ▸ hm) j he).1] at ha
      rw [Heap.kind, (hother m (hn ▸ hm) j he).2 a ha]
      exact hl.kind m (hn ▸ hm) j a ha
  owner m hm j a ha := by
    by_cases he : m = n ∧ j = k
    · obtain ⟨rfl, rfl⟩ := he
      exact (hthis a ha).2.2
    · rw [(hother m (hn ▸ hm) j he).1] at ha
      rw [Heap.owner, (hother m (hn ▸ hm) j he).2 a ha]
      exact hl.owner m (hn ▸ hm) j a ha
  idx m hm j hj i a ha := by
    by_cases he : m = n ∧ j = k
    · obtain ⟨rfl, rfl⟩ := he
      exact hidx hj i a ha
    · rw [(hother m (hn ▸ hm) j he).1] at ha
      rw [(hother m (hn ▸ hm) j he).2 a (mem_of_getElem? ha)]
      exact hl.idx m (hn ▸ hm) j hj i a ha

/-! ## Making -/

variable {a : AnchorId} {P : Heap → Prop}

/-- An anchor not made yet has no peers. -/
theorem peers_of_not_made (hs : h.Sound) (ha : h.anchorCount ≤ a) : h.peers a = [] := by
  refine eq_nil_iff_forall_not_mem.mpr fun b hb => ?_
  obtain ⟨hn, hmem⟩ := hs.symm.held hs.peersHeld hb
  exact absurd (hs.laid.made _ hn _ a hmem) (Nat.not_lt.mpr ha)

/-- A new data anchor of a node. -/
theorem appendAnchor_anchorsOf (hk : k.isData) : (Node.appendAnchor n k h).anchorsOf n' k' =
      if n' = n ∧ k' = k then h.anchorsOf n k ++ [h.anchorCount] else h.anchorsOf n' k' := by
  rw [Node.appendAnchor, anchorsOf_setAnchorsOf hk]
  cases k' <;> rfl

theorem appendAnchor_anchor (a : AnchorId) : (Node.appendAnchor n k h).anchor a = if a = h.anchorCount then
      { kind := k, ownerNode := n, idx := (h.anchorsOf n k).length } else h.anchor a := by
  rw [Node.appendAnchor, setAnchorsOf_anchor]
  exact setAnchor_anchor ..

theorem appendAnchor_nodeCount : (Node.appendAnchor n k h).nodeCount = h.nodeCount := by
  simp [Node.appendAnchor]

theorem appendAnchor_anchorCount : (Node.appendAnchor n k h).anchorCount = h.anchorCount + 1 := by
  simp [Node.appendAnchor]

/-- Appending an anchor leaves all peers. -/
theorem appendAnchor_peers (hs : h.Sound) : (Node.appendAnchor n k h).peers = h.peers := by
  funext a
  rw [Heap.peers, appendAnchor_anchor]
  split
  · rename_i ha
    rw [peers_of_not_made hs (Nat.le_of_eq ha.symm)]
  · rfl

/-- Appending an anchor leaves held anchors held. -/
theorem held_appendAnchor (hs : h.Sound) (hk : k.isData) {b : AnchorId} (hb : h.Held b) : (Node.appendAnchor n k h).Held b := by
  have hlt := hs.laid.made _ hb.1 _ b hb.2
  have hanchor : (Node.appendAnchor n k h).anchor b = h.anchor b := by
    rw [appendAnchor_anchor, if_neg (Nat.ne_of_lt hlt)]
  rw [Heap.Held, Heap.owner, Heap.kind, hanchor, appendAnchor_nodeCount, appendAnchor_anchorsOf hk]
  refine ⟨hb.1, ?_⟩
  split
  · rename_i he
    have := hb.2
    rw [Heap.owner, Heap.kind, he.1, he.2] at this
    exact mem_append_left _ this
  · exact hb.2

/-- A new data anchor keeps a heap laid out. -/
theorem laid_appendAnchor (hl : h.Laid) (hk : k.isData) (hn : n < h.nodeCount) : (Node.appendAnchor n k h).Laid := by
  refine laid_of_replaced (n := n) (k := k) hl appendAnchor_nodeCount
    (by rw [appendAnchor_anchorCount]; omega) ?_ ?_ ?_
  · intro m hm j he
    refine ⟨by rw [appendAnchor_anchorsOf hk, if_neg he], fun a ha => ?_⟩
    rw [appendAnchor_anchor, if_neg (Nat.ne_of_lt (hl.made m hm j a ha))]
  · intro a ha
    rw [appendAnchor_anchorsOf hk, if_pos ⟨rfl, rfl⟩, mem_append, mem_singleton] at ha
    rw [Heap.kind, Heap.owner, appendAnchor_anchor, appendAnchor_anchorCount]
    rcases ha with ha | rfl
    · have hlt := hl.made n hn k a ha
      rw [if_neg (Nat.ne_of_lt hlt)]
      exact ⟨Nat.lt_succ_of_lt hlt, hl.kind n hn k a ha, hl.owner n hn k a ha⟩
    · simp
  · intro _ i a ha
    rw [appendAnchor_anchorsOf hk, if_pos ⟨rfl, rfl⟩] at ha
    rw [appendAnchor_anchor]
    rw [getElem?_append] at ha
    split at ha
    · rw [if_neg (Nat.ne_of_lt (hl.made n hn k a (mem_of_getElem? ha)))]
      exact hl.idx n hn k hk i a ha
    · rename_i hi
      obtain ⟨hlt, rfl⟩ := List.getElem?_eq_some_iff.mp ha
      simp only [length_singleton] at hlt
      simp only [getElem_singleton, if_true]
      omega

/-- A new data anchor keeps a heap sound. -/
theorem sound_appendAnchor (hs : h.Sound) (hk : k.isData) (hn : n < h.nodeCount) : (Node.appendAnchor n k h).Sound where
  laid := laid_appendAnchor hs.laid hk hn
  symm := by rw [Heap.MutualLinks, appendAnchor_peers hs]; exact hs.symm
  peersHeld a b hb := by
    rw [appendAnchor_peers hs] at hb
    exact held_appendAnchor hs hk (hs.peersHeld a b hb)

/-- What one new data anchor of a node keeps, any number keeps. -/
theorem appendAnchors_invariant (hP : ∀ h : Heap, P h → n < h.nodeCount → P (Node.appendAnchor n k h)) (m : Nat) :
    ∀ {h : Heap}, P h → n < h.nodeCount → P (Node.appendAnchors n k m h) := by
  induction m with
  | zero => exact fun hs _ => hs
  | succ m ih =>
    intro h hs hn
    exact ih (hP h hs hn) (by rw [appendAnchor_nodeCount]; exact hn)

theorem appendAnchors_nodeCount (m : Nat) : ∀ h : Heap, (Node.appendAnchors n k m h).nodeCount = h.nodeCount := by
  induction m with
  | zero => exact fun _ => rfl
  | succ m ih => exact fun h => (ih _).trans appendAnchor_nodeCount

/-- A new node leaves the anchors that were made. -/
theorem bare_anchor (op : OpId) (g : Option GraphId) (ha : a < h.anchorCount) : (Node.bare op g h).anchor a = h.anchor a := by
  simp only [Node.bare, setNode_anchor, setAnchor_anchor]
  rw [if_neg (Nat.ne_of_lt (Nat.lt_succ_of_lt ha)), if_neg (Nat.ne_of_lt ha)]

/-- A new node leaves the anchors of the nodes that were made. -/
theorem bare_anchorsOf (op : OpId) (g : Option GraphId) {m : NodeId} (hm : m < h.nodeCount) (k : AnchorKind) :
    (Node.bare op g h).anchorsOf m k = h.anchorsOf m k := by
  have hnode : (Node.bare op g h).node m = h.node m := by
    simp only [Node.bare, setNode_node, setAnchor_node]
    rw [if_neg (Nat.ne_of_lt hm)]
  cases k <;> simp only [Heap.anchorsOf, hnode]

/-- A new node has its two control anchors. -/
theorem bare_new (op : OpId) (g : Option GraphId) {k : AnchorKind} (ha : a ∈ (Node.bare op g h).anchorsOf h.nodeCount k) :
    k.isData = false ∧ a < h.anchorCount + 2 ∧ (Node.bare op g h).kind a = k ∧
      (Node.bare op g h).owner a = h.nodeCount := by
  cases k with
  | inData | outData => simp [Node.bare, Heap.anchorsOf] at ha
  | inControl | outControl =>
    simp only [Node.bare, Heap.anchorsOf, setNode_node, if_true, mem_singleton] at ha
    subst ha
    simp [Node.bare, Heap.kind, Heap.owner, AnchorKind.isData]

/-- A new node with its control anchors keeps a heap laid out. -/
theorem laid_bare (hl : h.Laid) (op : OpId) (g : Option GraphId) : (Node.bare op g h).Laid := by
  have hsplit : ∀ m < (Node.bare op g h).nodeCount, m < h.nodeCount ∨ m = h.nodeCount :=
    fun m hm => Nat.lt_succ_iff_lt_or_eq.mp hm
  refine ⟨fun m hm k a ha => ?_, fun m hm k a ha => ?_, fun m hm k a ha => ?_, fun m hm k hk i a ha => ?_⟩
  · rcases hsplit m hm with hm | rfl
    · rw [bare_anchorsOf op g hm] at ha
      exact Nat.lt_add_right 2 (hl.made m hm k a ha)
    · exact (bare_new op g ha).2.1
  · rcases hsplit m hm with hm | rfl
    · rw [bare_anchorsOf op g hm] at ha
      rw [Heap.kind, bare_anchor op g (hl.made m hm k a ha)]
      exact hl.kind m hm k a ha
    · exact (bare_new op g ha).2.2.1
  · rcases hsplit m hm with hm | rfl
    · rw [bare_anchorsOf op g hm] at ha
      rw [Heap.owner, bare_anchor op g (hl.made m hm k a ha)]
      exact hl.owner m hm k a ha
    · exact (bare_new op g ha).2.2.2
  · rcases hsplit m hm with hm | rfl
    · rw [bare_anchorsOf op g hm] at ha
      rw [bare_anchor op g (hl.made m hm k a (mem_of_getElem? ha))]
      exact hl.idx m hm k hk i a ha
    · rw [(bare_new op g (mem_of_getElem? ha)).1] at hk
      cases hk

/-- A new node leaves all peers. -/
theorem bare_peers (hs : h.Sound) (op : OpId) (g : Option GraphId) : (Node.bare op g h).peers = h.peers := by
  funext a
  by_cases ha : a < h.anchorCount
  · rw [Heap.peers, bare_anchor op g ha, Heap.peers]
  · rw [peers_of_not_made hs (Nat.le_of_not_lt ha)]
    simp only [Node.bare, Heap.peers, setNode_anchor, setAnchor_anchor]
    split
    · rfl
    · split
      · rfl
      · exact peers_of_not_made hs (Nat.le_of_not_lt ha)

/-- A new node with its control anchors keeps a heap sound. -/
theorem sound_bare (hs : h.Sound) (op : OpId) (g : Option GraphId) : (Node.bare op g h).Sound := by
  have hpeers := bare_peers hs op g
  refine ⟨laid_bare hs.laid op g, by rw [Heap.MutualLinks, hpeers]; exact hs.symm, fun a b hb => ?_⟩
  rw [hpeers] at hb
  obtain ⟨hn, hmem⟩ := hs.peersHeld a b hb
  rw [Heap.Held, Heap.owner, Heap.kind, bare_anchor op g (hs.laid.made _ hn _ b hmem)]
  exact ⟨Nat.lt_succ_of_lt hn, (bare_anchorsOf op g hn _).symm ▸ hmem⟩

/-- What a bare node and a new data anchor keep, making a node keeps. -/
theorem keeps_make (hbare : ∀ (h : Heap) op g, P h → P (Node.bare op g h))
    (hP : ∀ (h : Heap) n k, k.isData → P h → n < h.nodeCount → P (Node.appendAnchor n k h)) (op : OpId)
    (g : Option GraphId) : Keeps P (Node.make op g) := by
  intro h n h' hs hr
  simp only [Node.make, get_bind_apply, set_bind_apply, pure_apply, Option.some.injEq, Prod.mk.injEq] at hr
  obtain ⟨-, rfl⟩ := hr
  have hlt : h.nodeCount < (Node.bare op g h).nodeCount := Nat.lt_succ_self _
  refine appendAnchors_invariant (fun t => hP t _ _ rfl) _
    (appendAnchors_invariant (fun t => hP t _ _ rfl) _ (hbare h op g hs) hlt) ?_
  rw [appendAnchors_nodeCount]
  exact hlt

/-! ## Dropping -/

/-- Data anchors of a node may be dropped: the anchors left are renumbered, and those dropped have no peers. -/
theorem sound_of_dropped (hs : h.Sound) (hcount : h'.nodeCount = h.nodeCount) (hmade : h'.anchorCount = h.anchorCount)
    (hkind : ∀ a, h'.kind a = h.kind a) (howner : ∀ a, h'.owner a = h.owner a) (hpeers : h'.peers = h.peers)
    (hn : n < h.nodeCount)
    (hlist : ∀ n' k', (n' = n ∧ k' = k → False) → h'.anchorsOf n' k' = h.anchorsOf n' k')
    (hother : ∀ a, a ∉ h.anchorsOf n k → h'.anchor a = h.anchor a)
    (hsub : ∀ a ∈ h'.anchorsOf n k, a ∈ h.anchorsOf n k)
    (hdrop : ∀ a ∈ h.anchorsOf n k, a ∉ h'.anchorsOf n k → h.peers a = [])
    (hidx : ∀ (i : Nat) a, (h'.anchorsOf n k)[i]? = some a → (h'.anchor a).idx = i) : h'.Sound where
  laid := by
    refine laid_of_replaced (n := n) (k := k) hs.laid hcount (Nat.le_of_eq hmade.symm) ?_ ?_ fun _ => hidx
    · intro m hm j he
      refine ⟨hlist m j he, fun a ha => hother a fun hmem => he ?_⟩
      exact ⟨(hs.laid.owner m hm j a ha).symm.trans (hs.laid.owner n hn k a hmem),
        (hs.laid.kind m hm j a ha).symm.trans (hs.laid.kind n hn k a hmem)⟩
    · intro a ha
      rw [hmade, hkind, howner]
      exact ⟨hs.laid.made n hn k a (hsub a ha), hs.laid.kind n hn k a (hsub a ha), hs.laid.owner n hn k a (hsub a ha)⟩
  symm := by rw [Heap.MutualLinks, hpeers]; exact hs.symm
  peersHeld a b hb := by
    rw [hpeers] at hb
    obtain ⟨hbn, hmem⟩ := hs.peersHeld a b hb
    rw [Heap.Held, howner, hkind, hcount]
    refine ⟨hbn, ?_⟩
    by_cases he : h.owner b = n ∧ h.kind b = k
    · rw [he.1, he.2] at hmem ⊢
      by_contra hnot
      have hback := hs.symm.mem hb
      rw [hdrop b hmem hnot] at hback
      cases hback
    · rw [hlist _ _ he]
      exact hmem

/-- Keeping the first anchors of a node keeps a heap sound when the others have no peers. -/
theorem sound_take (hs : h.Sound) (hk : k.isData) (hn : n < h.nodeCount) (num : Nat)
    (hdrop : ∀ a ∈ (h.anchorsOf n k).drop num, h.peers a = []) :
    (h.setAnchorsOf n k ((h.anchorsOf n k).take num)).Sound := by
  have hsame : ∀ l : List AnchorId, ∀ a, (h.setAnchorsOf n k l).anchor a = h.anchor a := by simp
  refine sound_of_dropped (n := n) (k := k) hs (by simp) (by simp) (fun a => by rw [Heap.kind, hsame, Heap.kind])
    (fun a => by rw [Heap.owner, hsame, Heap.owner]) (by funext a; rw [Heap.peers, hsame, Heap.peers]) hn ?_
    (fun a _ => hsame _ a) ?_ ?_ ?_
  · intro m j he
    rw [anchorsOf_setAnchorsOf hk, if_neg he]
  · intro a ha
    rw [anchorsOf_setAnchorsOf hk, if_pos ⟨rfl, rfl⟩] at ha
    exact mem_of_mem_take ha
  · intro a ha hnot
    rw [anchorsOf_setAnchorsOf hk, if_pos ⟨rfl, rfl⟩] at hnot
    rw [← take_append_drop num (h.anchorsOf n k), mem_append] at ha
    exact hdrop a (ha.resolve_left hnot)
  · intro i a ha
    rw [anchorsOf_setAnchorsOf hk, if_pos ⟨rfl, rfl⟩] at ha
    rw [hsame]
    refine hs.laid.idx n hn k hk i a ?_
    rw [getElem?_take] at ha
    split at ha
    · exact ha
    · cases ha

/-- What numbering anchors leaves: everything but their indices. -/
theorem renumber_frame : ∀ (l : List AnchorId) (i : Nat) (h : Heap),
    (NodeUtils.renumber l i h).nodeCount = h.nodeCount ∧ (NodeUtils.renumber l i h).anchorCount = h.anchorCount ∧
      (NodeUtils.renumber l i h).node = h.node ∧ (∀ a, (NodeUtils.renumber l i h).kind a = h.kind a) ∧
      (∀ a, (NodeUtils.renumber l i h).owner a = h.owner a) ∧ (NodeUtils.renumber l i h).peers = h.peers ∧
      ∀ a, a ∉ l → (NodeUtils.renumber l i h).anchor a = h.anchor a := by
  intro l
  induction l with
  | nil => exact fun i h => ⟨rfl, rfl, rfl, fun _ => rfl, fun _ => rfl, rfl, fun _ _ => rfl⟩
  | cons b l ih =>
    intro i h
    obtain ⟨h1, h2, h3, h4, h5, h6, h7⟩ := ih (i + 1) (h.setIdx b i)
    have hsame : ∀ a, (h.setIdx b i).anchor a = { h.anchor a with idx := ((h.setIdx b i).anchor a).idx } := by
      intro a
      simp only [Heap.setIdx, setAnchor_anchor]
      split
      · rename_i ha
        rw [ha]
      · rfl
    refine ⟨h1, h2, h3, fun a => ?_, fun a => ?_, ?_, fun a ha => ?_⟩
    · rw [NodeUtils.renumber, h4, Heap.kind, hsame, Heap.kind]
    · rw [NodeUtils.renumber, h5, Heap.owner, hsame, Heap.owner]
    · rw [NodeUtils.renumber, h6]
      funext a
      rw [Heap.peers, hsame, Heap.peers]
    · rw [NodeUtils.renumber, h7 a fun hm => ha (mem_cons_of_mem b hm)]
      simp only [Heap.setIdx, setAnchor_anchor]
      rw [if_neg fun e : a = b => ha (e ▸ mem_cons_self)]

/-- Distinct anchors are numbered by their positions. -/
theorem renumber_idx : ∀ (l : List AnchorId) (i : Nat) (h : Heap), l.Nodup → ∀ (j : Nat) a, l[j]? = some a →
    ((NodeUtils.renumber l i h).anchor a).idx = (i + j : Nat) := by
  intro l
  induction l with
  | nil => intro i h _ j a ha; simp at ha
  | cons b l ih =>
    intro i h hnd j a ha
    obtain ⟨hb, hnd⟩ := nodup_cons.mp hnd
    rw [NodeUtils.renumber]
    cases j with
    | zero =>
      obtain rfl : b = a := by simpa using ha
      obtain ⟨-, -, -, -, -, -, h7⟩ := renumber_frame l (i + 1) (h.setIdx b i)
      rw [h7 b hb, Heap.setIdx, setAnchor_anchor, if_pos rfl]
      simp
    | succ j =>
      rw [ih (i + 1) _ hnd j a (by simpa using ha)]
      congr 1
      omega

/-- Dropping an input without peers keeps a heap sound. -/
theorem sound_clearInDataAnchor {ok : Bool} {node : Option NodeId} {a : Option AnchorId} (hs : h.Sound)
    (hr : NodeUtils.clearInDataAnchor node a h = some (ok, h')) (hnode : ∀ n ∈ node, n < h.nodeCount)
    (hdrop : ∀ n ∈ node, ∀ x ∈ a, x ∈ h.anchorsOf n .inData → h.peers x = []) : h'.Sound := by
  rcases node with - | n
  · obtain ⟨-, rfl⟩ := of_return hr
    exact hs
  rcases a with - | x
  · obtain ⟨-, rfl⟩ : false = ok ∧ h = h' := by simpa [NodeUtils.clearInDataAnchor] using hr
    exact hs
  simp only [NodeUtils.clearInDataAnchor, get_bind_apply] at hr
  cases hi : (h.node n).inDataAnchors.findIdx? (· = x) with
  | none =>
    obtain ⟨-, rfl⟩ : false = ok ∧ h = h' := by simpa [hi] using hr
    exact hs
  | some i =>
    simp only [hi, set_bind_apply, pure_apply, Option.some.injEq, Prod.mk.injEq] at hr
    obtain ⟨-, rfl⟩ := hr
    have hn : n < h.nodeCount := hnode n rfl
    obtain ⟨hilt, hix, -⟩ := findIdx?_eq_some_iff_getElem.mp hi
    obtain rfl : (h.node n).inDataAnchors[i] = x := by simpa using hix
    have hnd : (h.node n).inDataAnchors.Nodup := hs.laid.nodup hn .inData
    obtain ⟨f1, f2, f3, f4, f5, f6, f7⟩ := renumber_frame ((h.node n).inDataAnchors.drop (i + 1)) i
      (h.setAnchorsOf n .inData ((h.node n).inDataAnchors.eraseIdx i))
    generalize hh : NodeUtils.renumber _ _ _ = h' at f1 f2 f3 f4 f5 f6 f7 ⊢
    have hanchors : ∀ m j, h'.anchorsOf m j =
        (h.setAnchorsOf n .inData ((h.node n).inDataAnchors.eraseIdx i)).anchorsOf m j := by
      intro m j
      cases j <;> simp only [Heap.anchorsOf, f3]
    have hlist : h'.anchorsOf n .inData = (h.anchorsOf n .inData).eraseIdx i := by
      rw [hanchors, anchorsOf_setAnchorsOf rfl, if_pos ⟨rfl, rfl⟩]
      rfl
    refine sound_of_dropped (n := n) (k := .inData) hs (f1.trans (by simp)) (f2.trans (by simp))
      (fun b => (f4 b).trans (by simp [Heap.kind])) (fun b => (f5 b).trans (by simp [Heap.owner]))
      (f6.trans (by funext b; simp [Heap.peers])) hn ?_ ?_ ?_ ?_ ?_
    · intro m j he
      rw [hanchors, anchorsOf_setAnchorsOf rfl, if_neg he]
    · intro b hb
      rw [f7 b fun hmem => hb (mem_of_mem_drop hmem)]
      simp
    · intro b hb
      rw [hlist] at hb
      exact mem_of_mem_eraseIdx hb
    · intro b hb hnot
      rw [hlist] at hnot
      have hbi : b = (h.node n).inDataAnchors[i] := by
        by_contra hne
        obtain ⟨j, hj⟩ := getElem?_of_mem hb
        refine hnot (mem_eraseIdx_iff_getElem?.mpr ⟨j, fun e => hne ?_, hj⟩)
        rw [e] at hj
        exact (List.getElem?_eq_some_iff.mp hj).2.symm
      rw [hbi]
      exact hdrop n rfl _ rfl (getElem_mem hilt)
    · intro j b hb
      rw [hlist, getElem?_eraseIdx] at hb
      have hpos := hs.laid.idx n hn .inData rfl
      split at hb
      · rename_i hj
        have hnot : b ∉ (h.node n).inDataAnchors.drop (i + 1) := by
          intro hmem
          obtain ⟨m, hm⟩ := getElem?_of_mem hmem
          rw [getElem?_drop] at hm
          have := (hpos j b hb).symm.trans (hpos _ b hm)
          omega
        rw [f7 b hnot, setAnchorsOf_anchor]
        exact hpos j b hb
      · rename_i hj
        have hb' : ((h.node n).inDataAnchors.drop (i + 1))[j - i]? = some b := by
          rw [getElem?_drop, show i + 1 + (j - i) = j + 1 by omega]
          exact hb
        rw [← hh, renumber_idx _ _ _ ((drop_sublist _ _).nodup hnd) _ b hb', Nat.add_sub_cancel' (Nat.le_of_not_lt hj)]

end AnchorAux

end Metadef
