import Metadef.Lemmas.MovedPeers

/-!
# Rounds that replace an anchor

One round of `ReplaceOutDataAnchors` and one of `ReplaceInDataAnchors`: it moves its links, or it stops with a link lost. What
decides is which inputs have a single link, and which are free when their turn comes.
-/

namespace Metadef

open List Adjacency

/-- How many ends of links there are. -/
def Heap.linkEnds (h : Heap) : Nat := ∑ a ∈ Finset.range h.anchorCount, (h.peers a).length

namespace ReplacedAnchorsAux

open Cmd GraphUtils LinkListsAux MovedPeersAux

variable {h h' t m : Heap} {a b old new : AnchorId} {l : List AnchorId}

/-! ## Counting links -/

theorem lt_anchorCount (hs : h.Sound) (ha : h.Held a) : a < h.anchorCount := hs.laid.made _ ha.1 _ a ha.2

/-- Two ends fewer at two anchors are two fewer of all. -/
theorem linkEnds_of_length (hc : t.anchorCount = h.anchorCount) (ha : a < h.anchorCount) (hb : b < h.anchorCount)
    (hlen : ∀ x, (t.peers x).length + ((if x = a then 1 else 0) + if x = b then 1 else 0) = (h.peers x).length) :
    t.linkEnds + 2 = h.linkEnds := by
  unfold Heap.linkEnds
  rw [hc, ← Finset.sum_congr rfl fun x _ => hlen x, Finset.sum_add_distrib, Finset.sum_add_distrib,
    Finset.sum_ite_eq' (Finset.range h.anchorCount) a, Finset.sum_ite_eq' (Finset.range h.anchorCount) b,
    if_pos (Finset.mem_range.mpr ha), if_pos (Finset.mem_range.mpr hb)]

/-- A link adds two ends. -/
theorem linkEnds_linked (hs : h.Sound) (ha : h.Held a) (hb : h.Held b) : (Anchor.linked h a b).linkEnds = h.linkEnds + 2 := by
  refine (linkEnds_of_length (t := h) (h := Anchor.linked h a b) (a := a) (b := b) rfl (hs.laid.made _ ha.1 _ a ha.2)
    (hs.laid.made _ hb.1 _ b hb.2) fun x => ?_).symm
  rw [Heap.linked_peers, length_push, length_push]
  omega

/-- Unlinking two linked anchors takes two ends. -/
theorem linkEnds_unlink (hs : h.Sound) (hb : b ∈ h.peers a) (hne : b ≠ a) (hr : Anchor.unlink a (some b) h = some (true, h')) :
    h'.linkEnds + 2 = h.linkEnds := by
  obtain ⟨-, -, hsame, hpeers⟩ := LinkAux.unlink_true hs hr
  refine linkEnds_of_length hsame.anchorCount (lt_anchorCount hs (hs.symm.held hs.peersHeld hb))
    (lt_anchorCount hs (hs.peersHeld a b hb)) fun x => ?_
  have hpos := length_pos_of_mem hb
  have hpos' := length_pos_of_mem (hs.symm.mem hb)
  rw [hpeers]
  by_cases hxb : x = b
  · subst hxb
    rw [if_pos rfl, if_neg hne, if_pos rfl, length_erase_of_mem (hs.symm.mem hb)]
    omega
  · by_cases hxa : x = a
    · subst hxa
      rw [if_neg hxb, if_pos rfl, if_pos rfl, if_neg hxb, length_erase_of_mem hb]
      omega
    · simp [hxa, hxb]

/-- Where the edges are the same there are as many ends. -/
theorem linkEnds_of_perm (hc : t.anchorCount = h.anchorCount) (hp : ∀ x, (t.peers x).Perm (h.peers x)) : t.linkEnds =
    h.linkEnds := by
  unfold Heap.linkEnds
  rw [hc]
  exact Finset.sum_congr rfl fun x _ => (hp x).length_eq

/-! ## Moving the inputs an output feeds -/

/-- Inputs whose only link was to an output are fed by another. -/
structure Refed (t t' : Heap) (old new : AnchorId) (l : List AnchorId) : Prop where
  moved : Moved t t' old new l
  ends : t'.linkEnds = t.linkEnds
  fed : ∀ p ∈ l, t'.peers p = [new]
  kept : ∀ x, x ∉ l → x ≠ old → x ≠ new → t'.peers x = t.peers x
  lists : old ≠ new → t'.peers new = t.peers new ++ l ∧ t'.peers old = (t.peers old).filter (· ∉ l)

theorem Refed.refl (hs : t.Sound) : Refed t t old new [] :=
  ⟨Moved.refl hs old new, rfl, fun _ hp => absurd hp not_mem_nil, fun _ _ _ _ => rfl,
    fun _ => ⟨(append_nil _).symm, (filter_eq_self.mpr fun _ _ => by simp).symm⟩⟩

theorem Refed.append {u : Heap} {l' : List AnchorId} (h₁ : Refed t m old new l) (h₂ : Refed m u old new l')
    (hl : ∀ p ∈ l, p ≠ old ∧ p ≠ new ∧ p ∉ l') : Refed t u old new (l ++ l') := by
  refine ⟨h₁.moved.append h₂.moved, h₂.ends.trans h₁.ends, fun p hp => ?_, fun x hx ho hn => ?_, fun hne => ?_⟩
  · by_cases hp' : p ∈ l'
    · exact h₂.fed p hp'
    · have hpl := (mem_append.mp hp).resolve_right hp'
      obtain ⟨ho, hn, -⟩ := hl p hpl
      exact (h₂.kept p hp' ho hn).trans (h₁.fed p hpl)
  · rw [mem_append, not_or] at hx
    exact (h₂.kept x hx.2 ho hn).trans (h₁.kept x hx.1 ho hn)
  · obtain ⟨hn₁, ho₁⟩ := h₁.lists hne
    obtain ⟨hn₂, ho₂⟩ := h₂.lists hne
    refine ⟨by rw [hn₂, hn₁, append_assoc], ?_⟩
    rw [ho₂, ho₁, filter_filter]
    refine filter_congr fun x _ => ?_
    simp only [mem_append, not_or, Bool.decide_and, Bool.and_comm]

/-- Erasing an item that occurs once leaves the others. -/
theorem erase_of_count_one {l : List AnchorId} (hl : l.count a = 1) : l.erase a = l.filter (· ∉ [a]) := by
  have hnone : a ∉ l.erase a := fun hmem => by
    have := count_pos_iff.mpr hmem
    rw [count_erase_self, hl] at this
    omega
  have hself : (l.erase a).filter (· ≠ a) = l.erase a := filter_eq_self.mpr fun x hx => by
    have hxa : x ≠ a := fun e => hnone (e ▸ hx)
    simpa using hxa
  rw [← hself, filter_erase_ne]
  simp only [mem_singleton, ne_eq]

/-- The ends of a link in the other order. -/
theorem toward_swap (a b x y : AnchorId) : toward a [b] x y = toward b [a] y x := by
  rw [toward_singleton, toward_singleton, one_swap]

section
variable {p : AnchorId} (hs : t.Sound) (hp : p ∈ t.peers old) (hpo : p ≠ old) (hnew : t.Held new)
include hs hp hpo hnew

/-- An input with a single link is unlinked and linked to the new output. -/
theorem refeed_one (hpn : p ≠ new) (hsingle : t.peers p = [old]) : ∃ m, Anchor.unlink p (some old) t = some (true, m) ∧
    InDataAnchor.linkFrom p (some new) m = some (true, Anchor.linked m p new) ∧ Refed t (Anchor.linked m p new) old new [p] := by
  have hback := hs.symm.mem hp
  obtain ⟨m, hm, hsm, hsame, hpeers⟩ := unlink_linked hs hback hpo.symm
  have hfree : m.peers p = [] := by
    rw [hpeers, if_neg hpo, if_pos rfl, hsingle, erase_cons_head]
  have hheldp := (hsame.held p).mpr (hs.peersHeld old p hp)
  have hheldn := (hsame.held new).mpr hnew
  have hends := linkEnds_unlink hs hback hpo.symm hm
  have hlinked : ∀ x, x ≠ p → x ≠ new → (Anchor.linked m p new).peers x = m.peers x := fun x => linked_peers_of_ne
  refine ⟨m, hm, by simp [InDataAnchor.linkFrom, Anchor.link, hfree],
    ⟨?_, ?_, fun x hx => ?_, fun x hx ho hn => ?_, fun hne => ⟨?_, ?_⟩⟩⟩
  · refine ⟨hsm.linked hheldp hheldn, SameButPeers.trans hsame (SameButPeers.linked m p new), fun x y => ?_⟩
    obtain ⟨m', hm', -, -, hcounts⟩ := unlink_counts hs hback hpo.symm
    obtain rfl : m = m' := (Prod.mk.inj (Option.some.inj (hm.symm.trans hm'))).2
    have e₁ := hcounts x y
    rw [linked_counts, toward_swap p new x y, toward_swap p new y x]
    rw [toward_swap p old x y, toward_swap p old y x] at e₁
    omega
  · rw [linkEnds_linked hsm hheldp hheldn, hends]
  · rw [mem_singleton.mp hx]
    simp [Anchor.linked, hpn, hfree]
  · have hxp : x ≠ p := fun e => hx (mem_singleton.mpr e)
    rw [hlinked x hxp hn, hpeers, if_neg ho, if_neg hxp]
  · have hnm : m.peers new = t.peers new := by rw [hpeers, if_neg hne.symm, if_neg hpn.symm]
    simp [Anchor.linked, hpn.symm, hnm]
  · rw [hlinked old hpo.symm hne, hpeers, if_pos rfl]
    -- the input occurs once, as it has one link
    have hcount : (t.peers old).count p = 1 := by rw [hs.symm old p, hsingle, count_singleton_self]
    exact erase_of_count_one hcount

omit hnew in
/-- An input with another link is unlinked and not linked again. -/
theorem refeed_fails (hmany : t.peers p ≠ [old]) : ∃ m, Anchor.unlink p (some old) t = some (true, m) ∧
    InDataAnchor.linkFrom p (some new) m = some (false, m) ∧ m.linkEnds + 2 = t.linkEnds ∧ t.SameButPeers m := by
  have hback := hs.symm.mem hp
  obtain ⟨m, hm, -, hsame, hpeers⟩ := unlink_linked hs hback hpo.symm
  refine ⟨m, hm, ?_, linkEnds_unlink hs hback hpo.symm hm, hsame⟩
  have hlinked : m.peers p ≠ [] := by
    rw [hpeers, if_neg hpo, if_pos rfl]
    obtain ⟨l₁, l₂, -, hsplit, hrest⟩ := exists_erase_eq hback
    rw [hrest]
    intro hnil
    obtain ⟨rfl, rfl⟩ := append_eq_nil_iff.mp hnil
    exact hmany hsplit
  simp [InDataAnchor.linkFrom, Anchor.link, hlinked]

end

/-- Moving inputs an output feeds goes through exactly when each has that link only; otherwise it stops with a link lost. -/
theorem moveInputs_spec : ∀ {l : List AnchorId} {t : Heap}, t.Sound → t.Held new → (∀ p, t.peers p = [old] → l.count p ≤ 1) →
    (∀ p ∈ l, p ∈ t.peers old ∧ p ≠ old ∧ p ≠ new) →
    ((∀ p ∈ l, t.peers p = [old]) ∧ ∃ pairs t', moveInputs new old l t = some (some pairs, t') ∧ Refed t t' old new l) ∨
      ((∃ p ∈ l, t.peers p ≠ [old]) ∧ ∃ t', moveInputs new old l t = some (none, t') ∧ t'.linkEnds + 2 = t.linkEnds ∧
        t.SameButPeers t') := by
  intro l
  induction l with
  | nil => exact fun {t} hs _ _ _ => .inl ⟨fun _ hp => absurd hp not_mem_nil, [], t, rfl, Refed.refl hs⟩
  | cons p l ih =>
    intro t hs hnew hnodup hl
    obtain ⟨hp, hpo, hpn⟩ := hl p mem_cons_self
    by_cases hsingle : t.peers p = [old]
    · have hpl : p ∉ l := fun hmem => by
        have hle := hnodup p hsingle
        have hpos := count_pos_iff.mpr hmem
        rw [count_cons_self] at hle
        omega
      obtain ⟨m, hm, hlink, hfed⟩ := refeed_one hs hp hpo hnew hpn hsingle
      have hstep : ∀ r t', moveInputs new old l (Anchor.linked m p new) = some (r, t') → moveInputs new old (p :: l) t =
          some (r.map fun rest => ((Anchor.linked m p new).owner new, (Anchor.linked m p new).owner p) :: rest, t') := by
        intro r t' hr
        rw [moveInputs, bind_of_eq hm]
        simp only [Bool.not_true, Bool.false_eq_true, if_false]
        rw [bind_of_eq hlink]
        simp only [Bool.not_true, Bool.false_eq_true, if_false, get_bind_apply]
        rw [bind_of_eq hr]
        cases r with
        | none => rfl
        | some rest => rfl
      have hrest : ∀ q ∈ l, (Anchor.linked m p new).peers q = t.peers q := fun q hq =>
        hfed.kept q (fun e => hpl (mem_singleton.mp e ▸ hq)) (hl q (mem_cons_of_mem p hq)).2.1
          (hl q (mem_cons_of_mem p hq)).2.2
      have hmem : ∀ q ∈ l, q ∈ (Anchor.linked m p new).peers old ∧ q ≠ old ∧ q ≠ new := by
        intro q hq
        obtain ⟨hqo, hne⟩ := hl q (mem_cons_of_mem p hq)
        refine ⟨hfed.moved.sound.symm.mem ?_, hne⟩
        rw [hrest q hq]
        exact hs.symm.mem hqo
      have honce : ∀ q, (Anchor.linked m p new).peers q = [old] → l.count q ≤ 1 := by
        intro q hq
        by_cases hmem : q ∈ l
        · have hle := hnodup q (hrest q hmem ▸ hq)
          exact Nat.le_trans (count_le_count_cons ..) hle
        · rw [count_eq_zero_of_not_mem hmem]
          omega
      rcases ih hfed.moved.sound ((hfed.moved.same.held new).mpr hnew) honce hmem with ⟨hall, pairs, t', hr, hmoved⟩ |
        ⟨⟨q, hq, hne⟩, t', hr, hends, hsame⟩
      · refine .inl ⟨fun q hq => ?_, _, t', hstep _ t' hr, ?_⟩
        · rcases mem_cons.mp hq with rfl | hq
          · exact hsingle
          · rw [← hrest q hq]
            exact hall q hq
        · refine hfed.append hmoved fun q hq => ?_
          rw [mem_singleton.mp hq]
          exact ⟨hpo, hpn, hpl⟩
      · refine .inr ⟨⟨q, mem_cons_of_mem p hq, hrest q hq ▸ hne⟩, t', hstep _ t' hr, by rw [hends, hfed.ends],
          SameButPeers.trans hfed.moved.same hsame⟩
    · obtain ⟨m, hm, hlink, hends, hsame⟩ := refeed_fails hs hp hpo hsingle
      refine .inr ⟨⟨p, mem_cons_self, hsingle⟩, m, ?_, hends, hsame⟩
      rw [moveInputs, bind_of_eq hm]
      simp only [Bool.not_true, Bool.false_eq_true, if_false]
      rw [bind_of_eq hlink]
      rfl

end ReplacedAnchorsAux

end Metadef
