import Metadef.Lemmas.MappedAnchors
import Metadef.Theorems.LinkSymmetry

/-!
# Moving the edges out of a node

`MoveOutputEdges` unlinks each edge of a data output before it links the reader to the output of the same index. A data input that has
another link is not linked again, and the edge is lost. The edges of the control output are linked first and unlinked last.
-/

namespace Metadef

open List

open NodeUtils

namespace Heap

variable (h : Heap)

/-- The outputs of a node paired with those of another whose edges they are to take. -/
def outputPairs (newNode originNode : NodeId) : List (AnchorId × AnchorId) :=
  (h.node newNode).outDataAnchors.zip (h.node originNode).outDataAnchors ++
    [((h.node newNode).outControlAnchor, (h.node originNode).outControlAnchor)]

/-- The edges of the second of each pair now are edges of the first, and no other edge is gone or new. -/
structure EdgesMoved (t : Heap) (pairs : List (AnchorId × AnchorId)) : Prop where
  olds : ∀ e ∈ pairs, t.peers e.2 = []
  news : ∀ e ∈ pairs, (t.peers e.1).Perm (h.peers e.1 ++ h.peers e.2)
  others : ∀ x, x ∉ pairs.map Prod.fst → x ∉ pairs.map Prod.snd → (t.peers x).Perm ((h.peers x).map (renameBy pairs))

/-- The edges out of a node are moved to another, each once. -/
def MovesOutputEdges (originNode newNode : NodeId) : Prop :=
  ∃ h', moveOutputEdges (some originNode) (some newNode) h = some (true, h') ∧ h.EdgesMoved h' (h.outputPairs newNode originNode)

/-- The data inputs that a node's outputs feed have no other link. -/
def FeedsSingly (n : NodeId) : Prop := ∀ o ∈ (h.node n).outDataAnchors, ∀ p ∈ h.peers o, h.kind p = .inData → h.peers p = [o]

end Heap

namespace MovedOutputsAux

open Cmd Heap LinkListsAux MovedPeersAux MappedAnchorsAux

variable {h t u v : Heap} {old new p x : AnchorId} {pairs : List (AnchorId × AnchorId)} {l : List AnchorId}

/-! ## Edges moved -/

theorem EdgesMoved.nil (h : Heap) : EdgesMoved h h [] :=
  ⟨nofun, nofun, fun _ _ _ => .of_eq ((map_congr_left fun _ _ => renameBy_of_not_mem not_mem_nil).trans
    (map_id _)).symm⟩

/-- The peers of an output, which are inputs, are not renamed. -/
theorem map_renameBy_of_out (hd : h.Directed) (hx : (h.kind x).isIn = false) (hp : ∀ e ∈ pairs, (h.kind e.2).isIn = false) :
    (h.peers x).map (renameBy pairs) = h.peers x := by
  refine (map_congr_left fun a ha => renameBy_of_not_mem fun hmem => ?_).trans (map_id _)
  obtain ⟨e, he, rfl⟩ := List.mem_map.mp hmem
  have := hd x e.2 ha
  rw [hx, hp e he] at this
  cases this

/-- Edges are moved by pairs one after the other when no anchor takes edges that are then moved on. -/
theorem EdgesMoved.append {ps qs : List (AnchorId × AnchorId)} (hd : h.Directed) (hkind : ∀ x, t.kind x = h.kind x)
    (hd' : t.Directed)
    (hapart : Apart (ps ++ qs)) (hout : ∀ e ∈ ps ++ qs, (h.kind e.1).isIn = false ∧ (h.kind e.2).isIn = false)
    (h₁ : h.EdgesMoved t ps) (h₂ : t.EdgesMoved u qs) : h.EdgesMoved u (ps ++ qs) := by
  have hnews : ∀ e ∈ ps, ∀ d ∈ qs, e.1 ≠ d.1 := by
    have := hapart.news
    rw [map_append, nodup_append] at this
    exact fun e he d hd => this.2.2 _ (mem_map_of_mem he) _ (mem_map_of_mem hd)
  have holds : ∀ e ∈ ps, ∀ d ∈ qs, e.2 ≠ d.2 := by
    have := hapart.olds
    rw [map_append, nodup_append] at this
    exact fun e he d hd => this.2.2 _ (mem_map_of_mem he) _ (mem_map_of_mem hd)
  have hps : ∀ e ∈ ps, e ∈ ps ++ qs := fun e he => mem_append_left _ he
  have hqs : ∀ e ∈ qs, e ∈ ps ++ qs := fun e he => mem_append_right _ he
  have hoff : ∀ {x : AnchorId} {l : List (AnchorId × AnchorId)}, (∀ e ∈ l, x ≠ e.1) → x ∉ l.map Prod.fst := fun hne hmem =>
    have ⟨e, he, heq⟩ := List.mem_map.mp hmem
    hne e he heq.symm
  have hoff' : ∀ {x : AnchorId} {l : List (AnchorId × AnchorId)}, (∀ e ∈ l, x ≠ e.2) → x ∉ l.map Prod.snd := fun hne hmem =>
    have ⟨e, he, heq⟩ := List.mem_map.mp hmem
    hne e he heq.symm
  refine ⟨fun e he => ?_, fun e he => ?_, fun x hx hx' => ?_⟩
  · rcases mem_append.mp he with he | he
    · have hperm := h₂.others e.2 (hoff fun d hd => (hapart.sides d (hqs d hd) e (hps e he)).symm)
        (hoff' fun d hd => holds e he d hd)
      rw [h₁.olds e he, map_nil] at hperm
      exact perm_nil.mp hperm
    · exact h₂.olds e he
  · rcases mem_append.mp he with he | he
    · have hperm := h₂.others e.1 (hoff fun d hd => hnews e he d hd) (hoff' fun d hd => hapart.sides e (hps e he) d (hqs d hd))
      rw [map_renameBy_of_out hd' (by rw [hkind]; exact (hout e (hps e he)).1) fun d hd => by rw [hkind]; exact
        (hout d (hqs d hd)).2] at hperm
      exact hperm.trans (h₁.news e he)
    · refine (h₂.news e he).trans ?_
      have hkept : ∀ y, (h.kind y).isIn = false → y ∉ ps.map Prod.fst → y ∉ ps.map Prod.snd → (t.peers y).Perm (h.peers y) := by
        intro y hy hfst hsnd
        have hperm := h₁.others y hfst hsnd
        rwa [map_renameBy_of_out hd hy fun d hd => (hout d (hps d hd)).2] at hperm
      exact (hkept e.1 (hout e (hqs e he)).1 (hoff fun d hd => (hnews d hd e he).symm)
        (hoff' fun d hd => hapart.sides e (hqs e he) d (hps d hd))).append
        (hkept e.2 (hout e (hqs e he)).2 (hoff fun d hd => (hapart.sides d (hps d hd) e (hqs e he)).symm)
          (hoff' fun d hd => (holds d hd e he).symm))
  · rw [map_append, mem_append, not_or] at hx hx'
    refine (h₂.others x hx.2 hx'.2).trans (((h₁.others x hx.1 hx'.1).map _).trans (.of_eq ?_))
    rw [map_map]
    refine map_congr_left fun a _ => ?_
    rw [Function.comp_apply]
    rcases renameBy_cases (hapart.sublist (sublist_append_left ps qs)) a with ⟨e, he, rfl, hren⟩ | ⟨hnot, hren⟩
    · rw [hren, renameBy_of_not_mem (hoff' fun d hd => hapart.sides e (hps e he) d (hqs d hd)), renameBy_of_mem hapart (hps e he)]
    · rw [hren]
      rcases renameBy_cases (hapart.sublist (sublist_append_right ps qs)) a with ⟨e, he, rfl, hren'⟩ | ⟨hnot', hren'⟩
      · rw [hren', renameBy_of_mem hapart (hqs e he)]
      · rw [hren', renameBy_of_not_mem (by rw [map_append, mem_append, not_or]; exact ⟨hnot, hnot'⟩)]

theorem count_renameBy_pair (hne : old ≠ new) (m : List AnchorId) (y : AnchorId) : (m.map (renameBy [(new, old)])).count y =
    if y = new then m.count new + m.count old else if y = old then 0 else m.count y := by
  have hren : ∀ a, renameBy [(new, old)] a = if old = a then new else a := fun a => by
    by_cases ha : old = a <;> simp [renameBy, ha]
  induction m with
  | nil => simp
  | cons a m ih =>
    rw [map_cons, count_cons, ih, hren, count_cons, count_cons, count_cons]
    simp only [beq_iff_eq]
    grind

/-- Where each count was moved from one output to another, the edges were. -/
theorem edgesMoved_of_moved (hs : h.Sound) (hd : h.Directed) (hne : old ≠ new) (hold : (h.kind old).isIn = false)
    (hnew : (h.kind new).isIn = false) (hl : l.Perm (h.peers old)) (hm : Moved h t old new l) : h.EdgesMoved t [(new, old)] := by
  have hself : ∀ y, (h.kind y).isIn = false → l.count y = 0 := fun y hy => by
    rw [hl.count_eq]
    exact count_eq_zero_of_not_mem (not_mem_peers_of_side hd (by rw [hy, hold]))
  have hcount : ∀ x y, (t.peers x).count y + (if x = old then l.count y else 0) + (if y = old then l.count x else 0) =
      (h.peers x).count y + (if x = new then l.count y else 0) + if y = new then l.count x else 0 := hm.counts
  refine ⟨fun e he => ?_, fun e he => ?_, fun x hx hx' => ?_⟩
  · obtain rfl := mem_singleton.mp he
    show t.peers old = []
    refine eq_nil_iff_forall_not_mem.mpr fun y hy => ?_
    have hc := hcount old y
    rw [if_pos rfl, if_neg hne, hself old hold, hl.count_eq] at hc
    have hpos := count_pos_iff.mpr hy
    simp only [ite_self] at hc
    omega
  · obtain rfl := mem_singleton.mp he
    refine perm_iff_count.mpr fun y => ?_
    have hc := hcount new y
    rw [if_neg hne.symm, if_pos rfl, hself new hnew, hl.count_eq] at hc
    rw [count_append]
    simp only [ite_self] at hc
    omega
  · have hxn : x ≠ new := by simpa using hx
    have hxo : x ≠ old := by simpa using hx'
    refine perm_iff_count.mpr fun y => ?_
    have hc := hcount x y
    rw [if_neg hxo, if_neg hxn, hl.count_eq, hs.symm old x] at hc
    rw [count_renameBy_pair hne]
    by_cases hy : y = new
    · subst hy
      rw [if_neg hne.symm, if_pos rfl] at hc
      rw [if_pos rfl]
      exact hc
    · rw [if_neg hy] at hc ⊢
      by_cases hy' : y = old
      · subst hy'
        rw [if_pos rfl] at hc ⊢
        omega
      · rw [if_neg hy'] at hc ⊢
        exact hc

/-! ## Data inputs -/

/-- A data output's edges to data inputs were moved, or lost where the input has another link. -/
structure DataMoved (h t : Heap) (old new : AnchorId) (l : List AnchorId) : Prop where
  sound : t.Sound
  same : h.SameButPeers t
  directed : h.Directed → (h.kind old).isIn = false → (h.kind new).isIn = false → t.Directed
  olds : ∀ y, (t.peers old).count y + l.count y = (h.peers old).count y
  kept : ∀ x, x ∉ l → x ≠ old → x ≠ new → t.peers x = h.peers x
  shrinks : ∀ x, x ≠ old → x ≠ new → (t.peers x).length ≤ (h.peers x).length
  loses : ∀ p ∈ l, 2 ≤ (h.peers p).length → (t.peers p).length < (h.peers p).length
  moved : (∀ p ∈ l, h.peers p = [old]) → Moved h t old new l

/-- One edge to a data input is moved, or lost. -/
theorem moveEdge_data (hs : h.Sound) (hne : old ≠ new) (hnew : h.Held new) (hp : p ∈ h.peers old) (hpo : p ≠ old) (hpn : p ≠ new) :
    ∃ ok t, moveEdge OutDataAnchor.linkTo old new p h = some (ok, t) ∧ DataMoved h t old new [p] := by
  obtain ⟨m, hm, hsm, hsame, hpeers⟩ := unlink_linked hs hp hpo
  obtain ⟨m', hm', -, -, hmoved⟩ := moved_one hs hp hpo hnew
  obtain rfl := (Prod.mk.inj (Option.some.inj (hm.symm.trans hm'))).2
  have hold : old ∈ h.peers p := hs.symm.mem hp
  have hfree : m.peers p = (h.peers p).erase old := by rw [hpeers, if_pos rfl]
  have hlen : (m.peers p).length + 1 = (h.peers p).length := by
    rw [hfree, length_erase_of_mem hold, Nat.sub_add_cancel (length_pos_of_mem hold)]
  have holds : ∀ y, (m.peers old).count y + [p].count y = (h.peers old).count y := fun y => by
    have hpos := count_pos_iff.mpr hp
    rw [hpeers, if_neg hpo.symm, if_pos rfl, count_erase, count_singleton]
    split
    · rename_i hy
      rw [← beq_iff_eq.mp hy]
      omega
    · rfl
  have hkept : ∀ x, x ≠ p → x ≠ old → m.peers x = h.peers x := fun x hx hx' => by rw [hpeers, if_neg hx, if_neg hx']
  have hdirected : h.Directed → m.Directed := fun hd x b hb => by
    rw [hsame.kind, hsame.kind]
    refine hd x b ?_
    rw [hpeers] at hb
    split at hb
    · rename_i hx
      exact hx ▸ mem_of_mem_erase hb
    · split at hb
      · rename_i hx
        exact hx ▸ mem_of_mem_erase hb
      · exact hb
  have hrun : ∀ r, OutDataAnchor.linkTo new (some p) m = r → moveEdge OutDataAnchor.linkTo old new p h = r := fun r hr => by
    rw [moveEdge, bind_of_eq hm]
    exact hr
  by_cases hempty : m.peers p = []
  · have hlink : OutDataAnchor.linkTo new (some p) m = some (true, Anchor.linked m new p) := by
      simp only [OutDataAnchor.linkTo, Anchor.link, get_bind_apply, hempty]
      rfl
    have hone : (Anchor.linked m new p).peers p = [new] := by rw [linked_peers_snd hpn.symm, hempty, nil_append]
    refine ⟨true, _, hrun _ hlink, hmoved.sound, hmoved.same, fun hd hko hkn => ?_, fun y => ?_, fun x hx hxo hxn => ?_,
      fun x hxo hxn => ?_,
      fun q hq htwo => ?_, fun _ => hmoved⟩
    · exact directed_of_moved hd hmoved hkn fun q hq => by rw [mem_singleton.mp hq, hd old p hp, hko]; rfl
    · rw [linked_peers_of_ne hne hpo.symm]
      exact holds y
    · have hxp : x ≠ p := by simpa using hx
      rw [linked_peers_of_ne hxn hxp, hkept x hxp hxo]
    · by_cases hxp : x = p
      · rw [hxp, hone, ← hlen]
        exact Nat.le_add_left _ _
      · rw [linked_peers_of_ne hxn hxp, hkept x hxp hxo]
    · obtain rfl := mem_singleton.mp hq
      rw [hempty] at hlen
      rw [← hlen] at htwo
      exact absurd htwo (by decide)
  · have hlink : OutDataAnchor.linkTo new (some p) m = some (false, m) := by
      have hfull : (m.peers p).isEmpty = false := by simpa using hempty
      simp only [OutDataAnchor.linkTo, Anchor.link, get_bind_apply, hfull]
      rfl
    refine ⟨false, _, hrun _ hlink, hsm, hsame, fun hd _ _ => hdirected hd, holds, fun x hx hxo _ => hkept x
      (by simpa using hx) hxo, fun x hxo _ => ?_,
      fun q hq _ => ?_, fun hone => ?_⟩
    · by_cases hxp : x = p
      · rw [hxp, ← hlen]
        exact Nat.le_succ _
      · rw [hkept x hxp hxo]
    · obtain rfl := mem_singleton.mp hq
      rw [← hlen]
      exact Nat.lt_succ_self _
    · rw [hfree, hone p (mem_singleton_self p), erase_cons_head] at hempty
      exact absurd rfl hempty

/-- The loop moves each edge, or loses it. -/
theorem moveData_run (hne : old ≠ new) : ∀ {l : List AnchorId} {h : Heap}, h.Sound → h.Held new → old ∉ l → new ∉ l →
    (∀ y, l.count y ≤ (h.peers old).count y) →
    ∃ t, Cmd.each (moveEdge OutDataAnchor.linkTo old new) l h = some ((), t) ∧ DataMoved h t old new l := by
  intro l
  induction l with
  | nil =>
    exact fun {h} hs _ _ _ _ => ⟨h, rfl, hs, SameButPeers.refl h, fun hd _ _ => hd, fun _ => rfl, fun _ _ _ _ => rfl,
      fun _ _ _ => Nat.le_refl _, nofun,
      fun _ => Moved.refl hs old new⟩
  | cons p l ih =>
    intro h hs hnew hold hnewl hcount
    rw [mem_cons, not_or] at hold hnewl
    have hp : p ∈ h.peers old := count_pos_iff.mp (Nat.lt_of_lt_of_le (by simp) (hcount p))
    obtain ⟨ok, m, hm, hone⟩ := moveEdge_data hs hne hnew hp (Ne.symm hold.1) (Ne.symm hnewl.1)
    have hrest : ∀ y, l.count y ≤ (m.peers old).count y := fun y => by
      have e₁ := hone.olds y
      have e₂ := hcount y
      rw [count_cons] at e₂
      rw [count_singleton] at e₁
      omega
    obtain ⟨t, ht, hl⟩ := ih hone.sound ((hone.same.held new).mpr hnew) hold.2 hnewl.2 hrest
    have hoff : ∀ {q}, q ∈ l → q ≠ old ∧ q ≠ new := fun hq => ⟨fun he => hold.2 (he ▸ hq), fun he => hnewl.2 (he ▸ hq)⟩
    refine ⟨t, by rw [Cmd.each, bind_of_eq hm]; exact ht, hl.sound, SameButPeers.trans hone.same hl.same, fun hd hko hkn => ?_,
      fun y => ?_, fun x hx hxo hxn => ?_, fun x hxo hxn => Nat.le_trans (hl.shrinks x hxo hxn) (hone.shrinks x hxo hxn),
        fun q hq htwo => ?_,
      fun hsingle => ?_⟩
    · exact hl.directed (hone.directed hd hko hkn) (by rw [hone.same.kind]; exact hko) (by rw [hone.same.kind]; exact hkn)
    · have e₁ := hone.olds y
      have e₂ := hl.olds y
      rw [count_cons]
      rw [count_singleton] at e₁
      omega
    · rw [mem_cons, not_or] at hx
      exact (hl.kept x hx.2 hxo hxn).trans (hone.kept x (by simpa using hx.1) hxo hxn)
    · by_cases hqp : q = p
      · subst hqp
        exact Nat.lt_of_le_of_lt (hl.shrinks q (Ne.symm hold.1) (Ne.symm hnewl.1)) (hone.loses q (mem_singleton_self q) htwo)
      · have hql := (mem_cons.mp hq).resolve_left hqp
        have hsame := hone.kept q (by simpa using hqp) (hoff hql).1 (hoff hql).2
        have := hl.loses q hql (by rw [hsame]; exact htwo)
        rwa [hsame] at this
    · -- an input with one link is not met again
      have hpl : p ∉ l := fun hmem => by
        have hc := hcount p
        rw [count_cons_self, hs.symm old p, hsingle p mem_cons_self, count_singleton_self] at hc
        have := count_pos_iff.mpr hmem
        omega
      refine (hone.moved fun q hq => ?_).append (hl.moved fun q hq => ?_)
      · rw [mem_singleton.mp hq]
        exact hsingle p mem_cons_self
      · rw [hone.kept q (by simpa using fun he : q = p => hpl (he ▸ hq)) (hoff hq).1 (hoff hq).2]
        exact hsingle q (mem_cons_of_mem p hq)

/-! ## Control inputs -/

/-- The loop moves each edge. -/
theorem moveControl_run (hne : old ≠ new) : ∀ {l : List AnchorId} {h : Heap}, h.Sound → h.Held new → old ∉ l →
    (∀ y, l.count y ≤ (h.peers old).count y) →
    ∃ t, Cmd.each (moveEdge OutDataAnchor.linkToControl old new) l h = some ((), t) ∧ Moved h t old new l := by
  intro l
  induction l with
  | nil => exact fun {h} hs _ _ _ => ⟨h, rfl, Moved.refl hs old new⟩
  | cons p l ih =>
    intro h hs hnew hold hcount
    rw [mem_cons, not_or] at hold
    have hp : p ∈ h.peers old := count_pos_iff.mp (Nat.lt_of_lt_of_le (by simp) (hcount p))
    obtain ⟨m, hm, hsame, -, hmoved⟩ := moved_one hs hp (Ne.symm hold.1) hnew
    have hrest : ∀ y, l.count y ≤ ((Anchor.linked m new p).peers old).count y := fun y => by
      have e₁ := hmoved.counts old y
      have e₂ := hcount y
      rw [count_cons] at e₂
      have e₃ : [p].count old = 0 := count_eq_zero_of_not_mem (by simpa using hold.1)
      rw [toward, if_pos rfl, toward, e₃, ite_self, toward, if_neg hne, toward, e₃, ite_self, count_singleton] at e₁
      omega
    obtain ⟨t, ht, hl⟩ := ih hmoved.sound ((hmoved.same.held new).mpr hnew) hold.2 hrest
    have hstep : moveEdge OutDataAnchor.linkToControl old new p h = some (true, Anchor.linked m new p) := by
      rw [moveEdge, bind_of_eq hm]
      rfl
    exact ⟨t, by rw [Cmd.each, bind_of_eq hstep]; exact ht, hmoved.append hl⟩

/-! ## One output -/

/-- The edges of one output were moved to another, but for those to data inputs with another link. -/
structure PairMoved (h t : Heap) (old new : AnchorId) : Prop where
  sound : t.Sound
  same : h.SameButPeers t
  directed : t.Directed
  kept : ∀ x, x ∉ h.peers old → x ≠ old → x ≠ new → (t.peers x).Perm (h.peers x)
  shrinks : ∀ x, x ≠ old → x ≠ new → (t.peers x).length ≤ (h.peers x).length
  loses : ∀ p ∈ h.peers old, h.kind p = .inData → 2 ≤ (h.peers p).length → (t.peers p).length < (h.peers p).length
  moved : (∀ p ∈ h.peers old, h.kind p = .inData → h.peers p = [old]) → h.EdgesMoved t [(new, old)]

/-- The function moves the edges of a data output, or loses them. -/
theorem moveOutDataEdges_run (hs : h.Sound) (hd : h.Directed) (hne : old ≠ new) (hko : (h.kind old).isIn = false)
    (hkn : (h.kind new).isIn = false) (hnew : h.Held new) :
    ∃ t, moveOutDataEdges old new h = some (true, t) ∧ PairMoved h t old new := by
  have hoff : ∀ {y}, y ∈ h.peers old → y ≠ old ∧ y ≠ new := fun hy =>
    ⟨fun he => not_mem_peers_of_side hd (by rw [he]) hy, fun he => not_mem_peers_of_side hd (by rw [he, hkn, hko]) hy⟩
  have hdatas : ∀ {y}, y ∈ OutDataAnchor.getPeerInDataAnchors h old ↔ y ∈ h.peers old ∧ h.kind y = .inData := by
    simp [OutDataAnchor.getPeerInDataAnchors, Anchor.getPeersOf]
  obtain ⟨t₁, ht₁, hm₁⟩ := moveData_run (l := OutDataAnchor.getPeerInDataAnchors h old) hne hs hnew
    (fun hmem => (hoff (hdatas.mp hmem).1).1 rfl) (fun hmem => (hoff (hdatas.mp hmem).1).2 rfl)
    fun y => filter_sublist.count_le y
  have hd₁ := hm₁.directed hd hko hkn
  have hcontrols : ∀ {y}, y ∈ OutDataAnchor.getPeerInControlAnchors t₁ old ↔ y ∈ t₁.peers old ∧ h.kind y = .inControl := by
    simp [OutDataAnchor.getPeerInControlAnchors, Anchor.getPeersOf, hm₁.same.kind]
  have hko₁ : (t₁.kind old).isIn = false := by rw [hm₁.same.kind]; exact hko
  have hkn₁ : (t₁.kind new).isIn = false := by rw [hm₁.same.kind]; exact hkn
  obtain ⟨t, ht, hm⟩ := moveControl_run (l := OutDataAnchor.getPeerInControlAnchors t₁ old) hne hm₁.sound
    ((hm₁.same.held new).mpr hnew)
    (fun hmem => not_mem_peers_of_side hd₁ rfl (hcontrols.mp hmem).1) fun y => filter_sublist.count_le y
  -- what is left after the data inputs are control inputs
  have hrest : OutDataAnchor.getPeerInControlAnchors t₁ old = t₁.peers old := by
    refine filter_eq_self.mpr fun y hy => decide_eq_true ?_
    have hpos := count_pos_iff.mpr hy
    have hy' : y ∈ h.peers old := count_pos_iff.mp (Nat.lt_of_lt_of_le hpos (by rw [← hm₁.olds y]; exact Nat.le_add_right _ _))
    have hin := hd old y hy'
    rw [hko] at hin
    rw [hm₁.same.kind]
    cases hk : h.kind y with
    | inControl => rfl
    | inData =>
      have hc := hm₁.olds y
      rw [OutDataAnchor.getPeerInDataAnchors, Anchor.getPeersOf, count_filter (by simpa using hk)] at hc
      omega
    | outData => rw [hk] at hin; cases hin
    | outControl => rw [hk] at hin; cases hin
  rw [hrest] at hm
  have hlate := edgesMoved_of_moved hm₁.sound hd₁ hne hko₁ hkn₁ (List.Perm.refl _) hm
  have hdirected := directed_of_moved hd₁ hm hkn₁ fun p hp => by rw [hd₁ old p hp, hko₁]; rfl
  have hlength : ∀ x, x ≠ old → x ≠ new → (t.peers x).length = (t₁.peers x).length := fun x hxo hxn => by
    rw [(hlate.others x (by simpa using hxn) (by simpa using hxo)).length_eq, length_map]
  refine ⟨t, ?_, hm.sound, SameButPeers.trans hm₁.same hm.same, hdirected, fun x hx hxo hxn => ?_, fun x hxo hxn => ?_,
    fun p hp hk htwo => ?_, fun hsingle => ?_⟩
  · rw [moveOutDataEdges, get_bind_apply, bind_of_eq ht₁, get_bind_apply, bind_of_eq ht]
    rfl
  · have hx₁ := hm₁.kept x (fun hmem => hx (hdatas.mp hmem).1) hxo hxn
    refine (hlate.others x (by simpa using hxn) (by simpa using hxo)).trans (.of_eq ?_)
    rw [hx₁]
    refine (map_congr_left fun a ha => renameBy_of_not_mem fun hmem => hx ?_).trans (map_id _)
    obtain rfl : a = old := by simpa using hmem
    exact hs.symm.mem ha
  · rw [hlength x hxo hxn]
    exact hm₁.shrinks x hxo hxn
  · rw [hlength p (hoff hp).1 (hoff hp).2]
    exact hm₁.loses p (hdatas.mpr ⟨hp, hk⟩) htwo
  · refine edgesMoved_of_moved hs hd hne hko hkn ?_ ((hm₁.moved fun p hp => hsingle p (hdatas.mp hp).1 (hdatas.mp hp).2).append hm)
    refine perm_iff_count.mpr fun y => ?_
    rw [count_append, Nat.add_comm]
    exact hm₁.olds y

/-! ## All outputs -/

/-- The edges of some outputs were moved to others, but for those to data inputs with another link. -/
structure PairsMoved (h t : Heap) (pairs : List (AnchorId × AnchorId)) : Prop where
  sound : t.Sound
  same : h.SameButPeers t
  directed : t.Directed
  shrinks : ∀ x, (h.kind x).isIn = true → (t.peers x).length ≤ (h.peers x).length
  loses : ∀ e ∈ pairs, ∀ p ∈ h.peers e.2, h.kind p = .inData → 2 ≤ (h.peers p).length → (t.peers p).length < (h.peers p).length
  moved : (∀ e ∈ pairs, ∀ p ∈ h.peers e.2, h.kind p = .inData → h.peers p = [e.2]) → h.EdgesMoved t pairs

/-- The loop over the data outputs moves their edges, or loses them. -/
theorem moveOutputs_run : ∀ {pairs : List (AnchorId × AnchorId)} {h : Heap}, h.Sound → h.Directed → Apart pairs →
    (∀ e ∈ pairs, (h.kind e.1).isIn = false ∧ (h.kind e.2).isIn = false ∧ h.Held e.1) →
    ∃ t, Cmd.each (fun e => moveOutDataEdges e.2 e.1) pairs h = some ((), t) ∧ PairsMoved h t pairs := by
  intro pairs
  induction pairs with
  | nil =>
    exact fun {h} hs hd _ _ => ⟨h, rfl, hs, SameButPeers.refl h, hd, fun _ _ => Nat.le_refl _, nofun, fun _ => EdgesMoved.nil h⟩
  | cons e pairs ih =>
    intro h hs hd hapart hout
    obtain ⟨hkn, hko, hheld⟩ := hout e mem_cons_self
    have hne : e.2 ≠ e.1 := (hapart.sides e mem_cons_self e mem_cons_self).symm
    obtain ⟨m, hm, hfirst⟩ := moveOutDataEdges_run hs hd hne hko hkn hheld
    obtain ⟨t, ht, hrest⟩ := ih hfirst.sound hfirst.directed (hapart.sublist (sublist_cons_self e pairs)) fun d hd => by
      rw [hfirst.same.kind, hfirst.same.kind, hfirst.same.held]
      exact hout d (mem_cons_of_mem e hd)
    have hin : ∀ {x}, (h.kind x).isIn = true → x ≠ e.2 ∧ x ≠ e.1 := fun hx =>
      ⟨ne_of_apply_ne (fun a => (h.kind a).isIn) (by rw [hx, hko]; decide), ne_of_apply_ne (fun a => (h.kind a).isIn)
        (by rw [hx, hkn]; decide)⟩
    -- the readers of the other outputs are still theirs
    have hlater : ∀ d ∈ pairs, (m.peers d.2).Perm (h.peers d.2) := fun d hmem => by
      have hkd := (hout d (mem_cons_of_mem e hmem)).2.1
      refine hfirst.kept d.2 (not_mem_peers_of_side hd (by rw [hkd, hko])) (fun he => ?_)
        (hapart.sides e mem_cons_self d (mem_cons_of_mem e hmem)).symm
      exact (nodup_cons.mp hapart.olds).1 (he ▸ mem_map_of_mem hmem)
    have hshrinks : ∀ x, (h.kind x).isIn = true → (t.peers x).length ≤ (m.peers x).length := fun x hx =>
      hrest.shrinks x (by rw [hfirst.same.kind]; exact hx)
    refine ⟨t, by rw [Cmd.each, bind_of_eq hm]; exact ht, hrest.sound, SameButPeers.trans hfirst.same hrest.same, hrest.directed,
      fun x hx => Nat.le_trans (hshrinks x hx) (hfirst.shrinks x (hin hx).1 (hin hx).2), fun d hmem p hp hk htwo => ?_,
        fun hsingle => ?_⟩
    · have hpin : (h.kind p).isIn = true := by rw [hk]; rfl
      by_cases hpe : p ∈ h.peers e.2
      · exact Nat.lt_of_le_of_lt (hshrinks p hpin) (hfirst.loses p hpe hk htwo)
      · have hd' : d ∈ pairs := (mem_cons.mp hmem).resolve_left fun he => hpe (he ▸ hp)
        have hlen := (hfirst.kept p hpe (hin hpin).1 (hin hpin).2).length_eq
        have := hrest.loses d hd' p ((hlater d hd').mem_iff.mpr hp) (by rw [hfirst.same.kind]; exact hk) (by rw [hlen]; exact htwo)
        rwa [hlen] at this
    · refine @EdgesMoved.append _ _ _ [e] pairs hd hfirst.same.kind hfirst.directed hapart
        (fun d hd => ⟨(hout d hd).1, (hout d hd).2.1⟩) (hfirst.moved (hsingle e mem_cons_self))
          (hrest.moved fun d hmem p hp hk => ?_)
      have hp' : p ∈ h.peers d.2 := (hlater d hmem).mem_iff.mp hp
      rw [hfirst.same.kind] at hk
      have hone := hsingle d (mem_cons_of_mem e hmem) p hp' hk
      have hpin : (h.kind p).isIn = true := by rw [hk]; rfl
      have hpe : p ∉ h.peers e.2 := fun hpe => by
        have hmem' := hs.symm.mem hpe
        rw [hone, mem_singleton] at hmem'
        exact (nodup_cons.mp hapart.olds).1 (hmem' ▸ mem_map_of_mem hmem)
      exact perm_singleton.mp (hone ▸ hfirst.kept p hpe (hin hpin).1 (hin hpin).2)

/-! ## The control output -/

theorem each_link (new : AnchorId) (link : AnchorId → Option AnchorId → Cmd Heap Bool)
    (hlink : ∀ (t : Heap) p, link new (some p) t = some (true, Anchor.linked t new p)) : ∀ (l : List AnchorId) (h : Heap),
    Cmd.each (fun peer => link new (some peer)) l h = some ((), linkAll (l.map fun p => (new, p)) h) := by
  intro l
  induction l with
  | nil => exact fun _ => rfl
  | cons p l ih =>
    intro h
    rw [Cmd.each, bind_of_eq (hlink h p)]
    exact ih _

theorem linkAll_counts (new : AnchorId) (l : List AnchorId) : ∀ (h : Heap) (x y : AnchorId),
    ((linkAll (l.map fun p => (new, p)) h).peers x).count y = (h.peers x).count y + toward new l x y + toward new l y x := by
  induction l with
  | nil =>
    intro h x y
    rw [toward_nil, toward_nil]
    rfl
  | cons p l ih =>
    intro h x y
    have hone := linked_counts h new p x y
    have hsplit : ∀ x y, toward new (p :: l) x y = toward new [p] x y + toward new l x y := toward_append new [p] l
    rw [map_cons, LinkListsAux.linkAll, ih, hone, hsplit, hsplit]
    omega

/-- Linking what an output is linked to and unlinking the output moves its edges. -/
theorem unlinkAll_linked (hs : h.Sound) (hd : h.Directed) (hne : old ≠ new) (hko : (h.kind old).isIn = false)
    (hnew : h.Held new) (hl : l.Perm (h.peers old)) :
    ∃ t, Anchor.unlinkAll old (linkAll (l.map fun p => (new, p)) h) = some ((), t) ∧ Moved h t old new l := by
  have hmem : ∀ p ∈ l, h.Held p ∧ (h.kind p).isIn = true := fun p hp => by
    have hp' := hl.mem_iff.mp hp
    exact ⟨hs.peersHeld old p hp', by rw [hd old p hp', hko]; rfl⟩
  have hsound : (linkAll (l.map fun p => (new, p)) h).Sound := sound_linkAll hs fun e he => by
    obtain ⟨p, hp, rfl⟩ := List.mem_map.mp he
    exact ⟨hnew, (hmem p hp).1⟩
  have hout : ∀ y, (h.kind y).isIn = false → l.count y = 0 := fun y hy =>
    count_eq_zero_of_not_mem fun hy' => by rw [(hmem y hy').2] at hy; cases hy
  have hcounts := linkAll_counts new l h
  have hself : old ∉ (linkAll (l.map fun p => (new, p)) h).peers old := by
    rw [← count_eq_zero, hcounts, toward, if_neg hne, count_eq_zero_of_not_mem (not_mem_peers_of_side hd rfl)]
  obtain ⟨t, ht, hts, hsame, hpeers⟩ := unlinkAll_filters hsound hself
  refine ⟨t, ht, hts, SameButPeers.trans (SameButPeers.linkAll _ h) hsame, fun x y => ?_⟩
  have hfilter : ∀ m : List AnchorId, (m.filter (· ≠ old)).count y = if y = old then 0 else m.count y := fun m => by
    by_cases hy : y = old
    · rw [if_pos hy]
      exact count_eq_zero_of_not_mem (by simp [hy])
    · rw [if_neg hy, count_filter (by simpa using hy)]
  rw [hpeers]
  by_cases hx : x = old
  · subst hx
    rw [if_pos rfl, count_nil, toward, if_pos rfl, hl.count_eq, toward, toward, if_neg hne, toward, hout x hko, ite_self,
      ite_self]
    omega
  · rw [if_neg hx, hfilter]
    by_cases hy : y = old
    · subst hy
      rw [if_pos rfl, toward, if_neg hx, toward, if_pos rfl, hl.count_eq, toward, hout y hko, ite_self, toward, if_neg hne,
        hs.symm x y]
      omega
    · have hxy : toward old l x y = 0 := if_neg hx
      have hyx : toward old l y x = 0 := if_neg hy
      rw [if_neg hy, hcounts, hxy, hyx, Nat.add_zero]

theorem linkAll_append (l l' : List (AnchorId × AnchorId)) : ∀ h : Heap, linkAll (l ++ l') h = linkAll l' (linkAll l h) := by
  induction l with
  | nil => exact fun _ => rfl
  | cons e l ih => exact fun h => ih _

/-- The pairs of the data outputs of two nodes with as many are apart, and so are they with those of the control outputs. -/
theorem apart_outputPairs {originNode newNode : NodeId} (hs : h.Sound) (horigin : originNode < h.nodeCount)
    (hnew : newNode < h.nodeCount) (hne : originNode ≠ newNode)
    (hsize : (h.node originNode).outDataAnchors.length = (h.node newNode).outDataAnchors.length) :
    Apart (h.outputPairs newNode originNode) ∧ ∀ e ∈ h.outputPairs newNode originNode, (h.kind e.1).isIn = false ∧
      (h.kind e.2).isIn = false ∧ h.Held e.1 ∧ h.owner e.1 = newNode ∧ h.owner e.2 = originNode := by
  have hdata : ∀ {n}, n < h.nodeCount → ∀ a ∈ (h.node n).outDataAnchors, h.kind a = .outData ∧ h.owner a = n ∧ h.Held a :=
    fun {n} hn a ha => ⟨hs.laid.kind n hn .outData a ha, hs.laid.owner n hn .outData a ha, hs.laid.held hn (k := .outData) ha⟩
  have hcontrol : ∀ {n}, n < h.nodeCount → h.kind (h.node n).outControlAnchor = .outControl ∧
      h.owner (h.node n).outControlAnchor = n ∧ h.Held (h.node n).outControlAnchor := fun {n} hn =>
    have ⟨hheld, hkind, howner⟩ := controlAnchor (k := .outControl) hs hn rfl
    ⟨hkind, howner, hheld⟩
  have hall : ∀ e ∈ h.outputPairs newNode originNode, (h.kind e.1).isIn = false ∧ (h.kind e.2).isIn = false ∧ h.Held e.1 ∧
      h.owner e.1 = newNode ∧ h.owner e.2 = originNode := by
    intro e he
    rcases mem_append.mp he with he | he
    · obtain ⟨h₁, h₂⟩ := of_mem_zip he
      obtain ⟨hk₁, ho₁, hh⟩ := hdata hnew e.1 h₁
      obtain ⟨hk₂, ho₂, -⟩ := hdata horigin e.2 h₂
      exact ⟨by rw [hk₁]; rfl, by rw [hk₂]; rfl, hh, ho₁, ho₂⟩
    · obtain rfl := mem_singleton.mp he
      obtain ⟨hk₁, ho₁, hh⟩ := hcontrol hnew
      obtain ⟨hk₂, ho₂, -⟩ := hcontrol horigin
      exact ⟨by rw [hk₁]; rfl, by rw [hk₂]; rfl, hh, ho₁, ho₂⟩
  have happend : ∀ {n}, n < h.nodeCount → ((h.node n).outDataAnchors ++ [(h.node n).outControlAnchor]).Nodup := fun {n} hn =>
    nodup_append.mpr ⟨hs.laid.nodup hn .outData, nodup_singleton _, fun a ha b hb heq => by
      rw [mem_singleton.mp hb] at heq
      have := (hdata hn a ha).1
      rw [heq, (hcontrol hn).1] at this
      cases this⟩
  refine ⟨⟨?_, ?_, fun e he d hd heq => ?_⟩, hall⟩
  · rw [Heap.outputPairs, map_append, map_fst_zip (Nat.le_of_eq hsize.symm)]
    exact happend hnew
  · rw [Heap.outputPairs, map_append, map_snd_zip (Nat.le_of_eq hsize)]
    exact happend horigin
  · have h₁ := (hall e he).2.2.2.1
    rw [heq, (hall d hd).2.2.2.2] at h₁
    exact hne h₁

/-- The function moves the edges of the control output behind those of the data outputs. -/
theorem moveOutputEdges_run {originNode newNode : NodeId} (hs : h.Sound) (hd : h.Directed) (horigin : originNode < h.nodeCount)
    (hnew : newNode < h.nodeCount) (hne : originNode ≠ newNode)
    (hsize : (h.node originNode).outDataAnchors.length = (h.node newNode).outDataAnchors.length) :
    ∃ t v, moveOutputEdges (some originNode) (some newNode) h = some (true, v) ∧
      PairsMoved h t ((h.node newNode).outDataAnchors.zip (h.node originNode).outDataAnchors) ∧
      t.EdgesMoved v [((h.node newNode).outControlAnchor, (h.node originNode).outControlAnchor)] := by
  obtain ⟨hapart, hout⟩ := apart_outputPairs hs horigin hnew hne hsize
  have hdatas : ∀ e ∈ (h.node newNode).outDataAnchors.zip (h.node originNode).outDataAnchors,
      e ∈ h.outputPairs newNode originNode := fun e he => mem_append_left _ he
  have hcontrol : ((h.node newNode).outControlAnchor, (h.node originNode).outControlAnchor) ∈ h.outputPairs newNode originNode :=
    mem_append_right _ (mem_singleton_self _)
  obtain ⟨t, ht, hm⟩ := moveOutputs_run hs hd (hapart.sublist (sublist_append_left _ _)) fun e he =>
    ⟨(hout e (hdatas e he)).1, (hout e (hdatas e he)).2.1, (hout e (hdatas e he)).2.2.1⟩
  obtain ⟨hkn, hko, hheld, hown, howo⟩ := hout _ hcontrol
  have hdiff : (h.node originNode).outControlAnchor ≠ (h.node newNode).outControlAnchor := (hapart.sides _ hcontrol _ hcontrol).symm
  dsimp only at hkn hko hheld
  rw [← hm.same.kind] at hkn hko
  rw [← hm.same.held] at hheld
  have hnode : ∀ n, t.node n = h.node n := fun n => congrFun hm.same.node n
  let l₁ := OutControlAnchor.getPeerInControlAnchors t (h.node originNode).outControlAnchor
  let t₁ := linkAll (l₁.map fun p => ((h.node newNode).outControlAnchor, p)) t
  let l₂ := OutControlAnchor.getPeerInDataAnchors t₁ (h.node originNode).outControlAnchor
  -- the links made do not change what the control output was linked to
  have hkept : t₁.peers (h.node originNode).outControlAnchor = t.peers (h.node originNode).outControlAnchor := by
    refine peers_linkAll_of_not_mem _ (fun e he => ?_) fun e he => ?_
    · obtain ⟨p, -, rfl⟩ := List.mem_map.mp he
      exact hdiff.symm
    · obtain ⟨p, hp, rfl⟩ := List.mem_map.mp he
      exact fun heq => not_mem_peers_of_side hm.directed (congrArg (fun a => (t.kind a).isIn) heq) (mem_filter.mp hp).1
  have hkind₁ : t₁.kind = t.kind := funext (SameButPeers.linkAll _ t).kind
  have hperm : (l₁ ++ l₂).Perm (t.peers (h.node originNode).outControlAnchor) := by
    have hl₂ : l₂ = (t.peers (h.node originNode).outControlAnchor).filter fun p => !decide (t.kind p = .inControl) := by
      show (t₁.peers _).filter (fun p => t₁.kind p = .inData) = _
      rw [hkept, hkind₁]
      refine filter_congr fun p hp => ?_
      have hin := hm.directed _ p hp
      rw [hko] at hin
      cases hk : t.kind p <;> simp_all [AnchorKind.isIn]
    rw [hl₂]
    exact filter_append_perm (fun p => decide (t.kind p = .inControl)) _
  obtain ⟨v, hv, hmoved⟩ := unlinkAll_linked hm.sound hm.directed hdiff hko hheld hperm
  refine ⟨t, v, ?_, hm, edgesMoved_of_moved hm.sound hm.directed hdiff hko hkn hperm hmoved⟩
  have hfirst := each_link (h.node newNode).outControlAnchor OutControlAnchor.linkTo (fun _ _ => rfl) l₁ t
  have hsecond := each_link (h.node newNode).outControlAnchor OutControlAnchor.linkToData (fun _ _ => rfl) l₂ t₁
  rw [map_append, linkAll_append] at hv
  simp only [moveOutputEdges, get_bind_apply]
  rw [if_neg (not_not.mpr hsize), bind_of_eq ht, get_bind_apply, hnode, hnode, bind_of_eq hfirst, get_bind_apply,
    bind_of_eq hsecond,
    bind_of_eq hv]
  rfl

end MovedOutputsAux

open MovedOutputsAux in
/-- The edges out of a node are moved to another exactly when the data inputs its data outputs feed have no other link. -/
theorem movesOutputEdges_iff (h : Heap) (originNode newNode : NodeId) (hs : h.Sound) (hd : h.Directed)
    (horigin : originNode < h.nodeCount)
    (hnew : newNode < h.nodeCount) (hne : originNode ≠ newNode)
    (hsize : (h.node originNode).outDataAnchors.length = (h.node newNode).outDataAnchors.length) :
    h.MovesOutputEdges originNode newNode ↔ h.FeedsSingly originNode := by
  obtain ⟨t, v, hr, hm, hlate⟩ := moveOutputEdges_run hs hd horigin hnew hne hsize
  obtain ⟨hapart, hout⟩ := apart_outputPairs hs horigin hnew hne hsize
  constructor
  · rintro ⟨h', hr', hmoves⟩ o ho p hp hk
    obtain rfl := (Prod.mk.inj (Option.some.inj (hr.symm.trans hr'))).2
    have hpin : (h.kind p).isIn = true := by rw [hk]; rfl
    obtain ⟨i, hi, rfl⟩ := mem_iff_getElem.mp ho
    have hzip : ((h.node newNode).outDataAnchors[i], (h.node originNode).outDataAnchors[i]) ∈
        (h.node newNode).outDataAnchors.zip (h.node originNode).outDataAnchors :=
      mem_iff_getElem.mpr ⟨i, by rw [length_zip]; omega, getElem_zip⟩
    have hoff : ∀ qs : List (AnchorId × AnchorId), (∀ e ∈ qs, e ∈ h.outputPairs newNode originNode) →
        p ∉ qs.map Prod.fst ∧ p ∉ qs.map Prod.snd := fun qs hqs => by
      refine ⟨fun hmem => ?_, fun hmem => ?_⟩ <;> obtain ⟨e, he, rfl⟩ := List.mem_map.mp hmem
      · rw [(hout e (hqs e he)).1] at hpin
        cases hpin
      · rw [(hout e (hqs e he)).2.1] at hpin
        cases hpin
    have hall := hoff (h.outputPairs newNode originNode) fun e he => he
    have hctrl := hoff [((h.node newNode).outControlAnchor, (h.node originNode).outControlAnchor)] fun e he =>
      mem_append_right _ he
    -- a data input with another link has lost one
    have hlen := (hmoves.others p hall.1 hall.2).length_eq
    have hlen' := (hlate.others p hctrl.1 hctrl.2).length_eq
    rw [length_map] at hlen hlen'
    have hfew : ¬ 2 ≤ (h.peers p).length := fun htwo => by
      have := hm.loses _ hzip p hp hk htwo
      omega
    have hback := hs.symm.mem hp
    match hpeers : h.peers p with
    | [] => rw [hpeers] at hback; cases hback
    | [q] => rw [hpeers] at hback; rw [mem_singleton.mp hback]
    | q :: q' :: rest => rw [hpeers] at hfew; exact absurd (Nat.le_add_left 2 _) hfew
  · intro hsingle
    have hearly := hm.moved fun e he p hp hk => hsingle e.2 (of_mem_zip he).2 p hp hk
    exact ⟨v, hr, EdgesMoved.append hd hm.same.kind hm.directed hapart (fun e he => ⟨(hout e he).1, (hout e he).2.1⟩) hearly hlate⟩

namespace MovedOutputsWitness

/-- A node that feeds a reader, and a node to take its place. The control output of the node also controls the reader, or is linked to
the data input it feeds. Control anchors come first. -/
def calls (doubled : Bool) : List LinkCall :=
  [.newOp { opDef := { name := "a", type := "Data" }, outputsDesc := [{}] }, .newNode 0,
    .newOp { opDef := { name := "b", type := "Relu" }, inputsDesc := [{}] }, .newNode 1,
    .newOp { opDef := { name := "m", type := "Data" }, outputsDesc := [{}] }, .newNode 2, .addDataEdge (some 2) (some 5),
    if doubled then .outControlLinkToData 1 (some 5) else .addControlEdge (some 1) (some 3)]

def heap (doubled : Bool) : Heap := (LinkCall.runAll (calls doubled)).getD .empty

theorem sound_heap (doubled : Bool) : (heap doubled).Sound :=
  sound_runAll (calls doubled) (heap doubled) (by cases doubled <;> decide +kernel) (by cases doubled <;> rfl)

theorem directed_heap (doubled : Bool) : (heap doubled).Directed :=
  (sound_heap doubled).forall_peers (by cases doubled <;> decide +kernel)

theorem movesOutputEdges_heap : (heap false).MovesOutputEdges 0 2 :=
  (movesOutputEdges_iff (heap false) 0 2 (sound_heap false) (directed_heap false) (by decide +kernel) (by decide +kernel)
    (by decide)
    (by decide +kernel)).mpr (by
      have hsingle : ∀ o ∈ ((heap false).node 0).outDataAnchors, ∀ p ∈ (heap false).peers o,
          (heap false).kind p = .inData → (heap false).peers p = [o] := by decide +kernel
      exact hsingle)

/-- The data edge is lost: its reader still has the link of the control output. -/
theorem movesOutputEdges_false :
    ¬ ∀ (h : Heap) (originNode newNode : NodeId), h.Sound → h.Directed → originNode < h.nodeCount → newNode < h.nodeCount →
      originNode ≠ newNode → (h.node originNode).outDataAnchors.length = (h.node newNode).outDataAnchors.length →
      h.MovesOutputEdges originNode newNode := by
  intro hall
  obtain ⟨h', hr, hmoves⟩ := hall (heap true) 0 2 (sound_heap true) (directed_heap true) (by decide +kernel) (by decide +kernel)
    (by decide) (by decide +kernel)
  have hlost : (NodeUtils.moveOutputEdges (some 0) (some 2) (heap true)).all (fun r => r.2.peers 8 == []) =
    true := by decide +kernel
  rw [hr, Option.all_some, beq_iff_eq] at hlost
  have hperm := hmoves.news (8, 2) (by decide +kernel)
  rw [hlost, show (heap true).peers 8 ++ (heap true).peers 2 = [5] by decide +kernel] at hperm
  exact absurd hperm.length_eq (by decide)

end MovedOutputsWitness

end Metadef
