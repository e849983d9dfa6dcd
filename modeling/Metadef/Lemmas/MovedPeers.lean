import Metadef.Edges
import Metadef.Lemmas.LinkLists
import Metadef.Rewiring

/-!
# Runs of links taken away

Unlinking two linked anchors erases each once from the peers of the other, and unlinking all peers of an anchor takes it out of
every list.
-/

namespace Metadef

open List Adjacency

namespace MovedPeersAux

open Cmd LinkAux LinkListsAux

variable {h h' t : Heap} {a b x : AnchorId}

/-- Unlinking leaves everything but peers. -/
theorem sameButPeers_unlink {ok : Bool} {peer : Option AnchorId} (hr : Anchor.unlink a peer h = some (ok, h')) :
    h.SameButPeers h' := by
  rcases unlink_cases hr with ⟨-, rfl⟩ | ⟨-, p, i, j, rfl, -, -, -, rfl⟩
  · exact SameButPeers.refl _
  · exact ⟨(Heap.sameLayout_setPeers _ _ _).trans (Heap.sameLayout_setPeers _ _ _), rfl, rfl, rfl, rfl⟩

/-- Two linked anchors are unlinked: each loses one occurrence of the other. -/
theorem unlink_linked (hs : h.Sound) (hb : b ∈ h.peers a) (hne : b ≠ a) :
    ∃ h', Anchor.unlink a (some b) h = some (true, h') ∧ h'.Sound ∧ h.SameButPeers h' ∧
      ∀ x, h'.peers x = if x = b then (h.peers b).erase a else if x = a then (h.peers a).erase b else h.peers x := by
  obtain ⟨h', hr⟩ := unlink_returns hs hb hne
  exact ⟨h', hr, keeps_unlink a (some b) h true h' hs hr, sameButPeers_unlink hr, (unlink_true hs hr).2.2.2⟩

/-- Erasing an item changes nothing among the others. -/
theorem filter_erase_ne (l : List AnchorId) (a : AnchorId) : (l.erase a).filter (· ≠ a) = l.filter (· ≠ a) := by
  induction l with
  | nil => rfl
  | cons b l ih =>
    by_cases hb : b = a
    · subst hb
      simp
    · rw [erase_cons_tail (by simpa using hb), filter_cons_of_pos (by simpa using hb),
        filter_cons_of_pos (by simpa using hb), ih]

/-- The loop that unlinks the first peer takes the anchor out of every list. -/
theorem unlinkLoop_filters : ∀ (n : Nat) {h : Heap}, h.Sound → a ∉ h.peers a → (h.peers a).length = n →
    ∃ h', Anchor.unlinkLoop a n h = some ((), h') ∧ h'.Sound ∧ h.SameButPeers h' ∧
      ∀ x, h'.peers x = if x = a then [] else (h.peers x).filter (· ≠ a) := by
  intro n
  induction n with
  | zero =>
    intro h hs _ hlen
    have hnil := length_eq_zero_iff.mp hlen
    refine ⟨h, rfl, hs, SameButPeers.refl h, fun x => ?_⟩
    split
    · rename_i hx
      rw [hx, hnil]
    · refine (filter_eq_self.mpr fun y hy => ?_).symm
      have hback := hs.symm.mem hy
      have hya : y ≠ a := by
        rintro rfl
        rw [hnil] at hback
        cases hback
      simpa using hya
  | succ n ih =>
    intro h hs hself hlen
    obtain ⟨p, l, hpl⟩ := exists_cons_of_length_eq_add_one hlen
    have hmem : p ∈ h.peers a := hpl ▸ mem_cons_self
    have hne : p ≠ a := fun e => hself (e ▸ hmem)
    obtain ⟨m, hm, hsm, hsame, hpeers⟩ := unlink_linked hs hmem hne
    have hown : m.peers a = l := by rw [hpeers, if_neg hne.symm, if_pos rfl, hpl, erase_cons_head]
    obtain ⟨h', hr, hs', hsame', hpeers'⟩ := ih hsm (by rw [hown]; exact fun hm => hself (hpl ▸ mem_cons_of_mem p hm))
      (by rw [hown]; simpa [hpl] using hlen)
    refine ⟨h', ?_, hs', SameButPeers.trans hsame hsame', fun x => ?_⟩
    · have hhead : (h.peers a).head? = some p := by rw [hpl]; rfl
      simp only [Anchor.unlinkLoop, get_bind_apply, hhead]
      rw [bind_of_eq hm]
      exact hr
    · rw [hpeers', hpeers]
      by_cases hx : x = a
      · rw [if_pos hx, if_pos hx]
      · rw [if_neg hx, if_neg hx, if_neg hx]
        split
        · rename_i hxp
          rw [filter_erase_ne, hxp]
        · rfl

/-- Unlinking all peers of an anchor takes it out of every list. -/
theorem unlinkAll_filters (hs : h.Sound) (hself : a ∉ h.peers a) :
    ∃ h', Anchor.unlinkAll a h = some ((), h') ∧ h'.Sound ∧ h.SameButPeers h' ∧
      ∀ x, h'.peers x = if x = a then [] else (h.peers x).filter (· ≠ a) :=
  unlinkLoop_filters _ hs hself rfl

/-! ## Anchors of a node -/

/-- The facts about a control anchor of a node. -/
theorem controlAnchor (hs : h.Sound) {n : NodeId} (hn : n < h.nodeCount) {k : AnchorKind} {a : AnchorId}
    (ha : h.anchorsOf n k = [a]) :
    h.Held a ∧ h.kind a = k ∧ h.owner a = n := by
  have hmem : a ∈ h.anchorsOf n k := ha ▸ mem_singleton_self a
  exact ⟨hs.laid.held hn hmem, hs.laid.kind n hn k a hmem, hs.laid.owner n hn k a hmem⟩

/-- A peer of a control anchor of its node's is that anchor. -/
theorem eq_controlAnchor (hb : h.Held a) {c : AnchorId} (hc : h.anchorsOf (h.owner a) (h.kind a) = [c]) : a = c := by
  have := hb.2
  rw [hc] at this
  exact mem_singleton.mp this

/-- No anchor of a directed heap is its own peer, nor one of its side. -/
theorem not_mem_peers_of_side (hd : h.Directed) (hab : (h.kind a).isIn = (h.kind b).isIn) : a ∉ h.peers b := by
  intro hmem
  have := hd b a hmem
  rw [hab] at this
  cases hk : (h.kind b).isIn <;> simp [hk] at this

/-! ## Moving links -/

/-- How often a list has an item, at one vertex. -/
def toward (a : AnchorId) (l : List AnchorId) (x y : AnchorId) : Nat := if x = a then l.count y else 0

theorem toward_nil (a x y : AnchorId) : toward a [] x y = 0 := by
  simp [toward]

theorem toward_append (a : AnchorId) (l l' : List AnchorId) (x y : AnchorId) :
    toward a (l ++ l') x y = toward a l x y + toward a l' x y := by
  unfold toward
  split
  · exact count_append
  · rfl

theorem toward_singleton (a b x y : AnchorId) : toward a [b] x y = Adjacency.one a b x y := by
  unfold toward Adjacency.one
  by_cases hx : x = a <;> by_cases hy : y = b <;> simp [hx, hy, eq_comm (a := b)]

/-- Links of an anchor with those of a list became links of another: each count moved from one to the other, on both sides. -/
structure Moved (h t : Heap) (old new : AnchorId) (l : List AnchorId) : Prop where
  sound : t.Sound
  same : h.SameButPeers t
  counts : ∀ x y, (t.peers x).count y + toward old l x y + toward old l y x =
    (h.peers x).count y + toward new l x y + toward new l y x

theorem Moved.refl (hs : h.Sound) (old new : AnchorId) : Moved h h old new [] :=
  ⟨hs, SameButPeers.refl h, fun _ _ => by simp only [toward_nil]⟩

variable {old new : AnchorId} {l : List AnchorId}

theorem Moved.append {l' : List AnchorId} {u : Heap} (h₁ : Moved h t old new l) (h₂ : Moved t u old new l') :
    Moved h u old new (l ++ l') := by
  refine ⟨h₂.sound, SameButPeers.trans h₁.same h₂.same, fun x y => ?_⟩
  have e₁ := h₁.counts x y
  have e₂ := h₂.counts x y
  simp only [toward_append]
  omega

theorem linked_counts (h : Heap) (a b x y : AnchorId) : ((Anchor.linked h a b).peers x).count y =
    (h.peers x).count y + toward a [b] x y + toward a [b] y x := by
  rw [Heap.linked_peers, count_push, count_push, toward_singleton, toward_singleton,
    one_swap a b y x]

/-- Unlinking two linked anchors takes one from the counts of both. -/
theorem unlink_counts (hs : h.Sound) (hb : b ∈ h.peers a) (hne : b ≠ a) :
    ∃ h', Anchor.unlink a (some b) h = some (true, h') ∧ h'.Sound ∧ h.SameButPeers h' ∧
      ∀ x y, (h'.peers x).count y + toward a [b] x y + toward a [b] y x = (h.peers x).count y := by
  obtain ⟨h', hr, hs', hsame, hpeers⟩ := unlink_linked hs hb hne
  have hpos := count_pos_iff.mpr hb
  have hpos' := count_pos_iff.mpr (hs.symm.mem hb)
  refine ⟨h', hr, hs', hsame, fun x y => ?_⟩
  rw [hpeers, toward_singleton, toward_singleton]
  unfold Adjacency.one
  by_cases hxb : x = b
  · subst hxb
    rw [if_pos rfl, count_erase, if_neg (fun e : x = a ∧ y = x => hne e.1), if_congr (and_iff_left rfl) rfl rfl]
    by_cases hya : y = a
    · subst hya
      simp only [beq_self_eq_true, if_true]
      omega
    · have : (a == y) = false := by simpa using Ne.symm hya
      simp [hya, this]
  · rw [if_neg hxb]
    by_cases hxa : x = a
    · subst hxa
      rw [if_pos rfl, count_erase]
      by_cases hyb : y = b
      · subst hyb
        have hyx : ¬ (y = x ∧ x = y) := fun e => hne e.1
        simp only [beq_self_eq_true, if_true, and_self, hyx, if_false]
        omega
      · have : (b == y) = false := by simpa using Ne.symm hyb
        simp [hyb, this, hxb]
    · simp [hxa, hxb]

/-- A link is moved by taking it from one anchor and making it from another. -/
theorem moved_one {p : AnchorId} (hs : h.Sound) (hp : p ∈ h.peers old) (hne : p ≠ old) (hnew : h.Held new) :
    ∃ m, Anchor.unlink old (some p) h = some (true, m) ∧ h.SameButPeers m ∧
      (∀ x y, (m.peers x).count y + toward old [p] x y + toward old [p] y x = (h.peers x).count y) ∧
      Moved h (Anchor.linked m new p) old new [p] := by
  obtain ⟨m, hm, hsm, hsame, hcounts⟩ := unlink_counts hs hp hne
  refine ⟨m, hm, hsame, hcounts, hsm.linked ((hsame.held new).mpr hnew) ((hsame.held p).mpr (hs.peersHeld old p hp)),
    SameButPeers.trans hsame (SameButPeers.linked m new p), fun x y => ?_⟩
  have e₁ := hcounts x y
  rw [linked_counts]
  omega

/-- A loop that moves the control edges of an output moves them all. -/
theorem moveEdges_moves (hdiff : old ≠ new) : ∀ {l : List AnchorId} {h : Heap}, h.Sound → old ∉ l → new ∉ l →
    h.Held new → (∀ y, l.count y ≤ (h.peers old).count y) →
    ∃ t, ComputeGraph.moveEdges GraphUtils.addControlEdge old new l h = some (true, t) ∧ Moved h t old new l := by
  intro l
  induction l with
  | nil => exact fun {h} hs _ _ _ _ => ⟨h, rfl, Moved.refl hs old new⟩
  | cons p l ih =>
    intro h hs hold hnew hheld hcount
    have hp : p ∈ h.peers old := count_pos_iff.mp (Nat.lt_of_lt_of_le (by simp) (hcount p))
    have hpo : p ≠ old := fun e => hold (e ▸ mem_cons_self)
    have hpn : p ≠ new := fun e => hnew (e ▸ mem_cons_self)
    obtain ⟨m, hm, hsame, -, hmoved⟩ := moved_one hs hp hpo hheld
    obtain ⟨t, ht, hrest⟩ := ih hmoved.sound (fun hmem => hold (mem_cons_of_mem p hmem))
      (fun hmem => hnew (mem_cons_of_mem p hmem))
      ((hmoved.same.held new).mpr hheld) fun y => by
        have e₁ := hmoved.counts old y
        have e₂ := hcount y
        simp only [toward, if_true, hdiff, if_false] at e₁
        rw [count_cons] at e₂
        by_cases hy : y = old
        · subst hy
          rw [count_eq_zero_of_not_mem fun hmem => hold (mem_cons_of_mem p hmem)]
          omega
        · have e₃ : ([p] : List AnchorId).count y = if p == y then 1 else 0 := by simp [count_cons]
          simp only [hy, if_false] at e₁
          split at e₁
          · have : [p].count old = 0 := count_eq_zero_of_not_mem (by simpa using hpo.symm)
            omega
          · omega
    refine ⟨t, ?_, by simpa using hmoved.append hrest⟩
    have hstep : (do
        if !(← GraphUtils.removeEdge (some old) (some p)) then return false
        GraphUtils.addControlEdge (some new) (some p) : Cmd Heap Bool) h = some (true, Anchor.linked m new p) := by
      rw [show GraphUtils.removeEdge (some old) (some p) = Anchor.unlink old (some p) from rfl, bind_of_eq hm]
      rfl
    rw [ComputeGraph.moveEdges, Cmd.eachOk, bind_of_eq hstep]
    exact ht

/-- Moving inputs to an output keeps links between outputs and inputs. -/
theorem directed_of_moved (hd : h.Directed) (hm : Moved h t old new l)
    (hnew : (h.kind new).isIn = false) (hl : ∀ p ∈ l, (h.kind p).isIn = true) : t.Directed := by
  intro a b hb
  have e₁ := hm.counts a b
  have hpos := count_pos_iff.mpr hb
  have htoward : ∀ {x y}, 0 < toward new l x y → x = new ∧ y ∈ l := by
    intro x y hlt
    unfold toward at hlt
    split at hlt
    · exact ⟨‹_›, count_pos_iff.mp hlt⟩
    · omega
  rw [hm.same.kind, hm.same.kind]
  by_cases h₁ : 0 < (h.peers a).count b
  · exact hd a b (count_pos_iff.mp h₁)
  · by_cases h₂ : 0 < toward new l a b
    · obtain ⟨rfl, hbl⟩ := htoward h₂
      rw [hnew, hl b hbl]
      rfl
    · obtain ⟨rfl, hal⟩ := htoward (show 0 < toward new l b a by omega)
      rw [hnew, hl a hal]
      rfl

end MovedPeersAux

end Metadef
