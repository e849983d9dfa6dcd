import Metadef.Lemmas.MovedPeers
import Metadef.Theorems.Isolation

/-!
# Putting a node behind an output

`InsertNodeAfter` feeds a node by an output and moves inputs the output feeds, and the control edges of its owner, behind the
node. It goes through exactly when the inputs are distinct and have no other link; what was reached is then reached as before.
-/

namespace Metadef

open List LinkAux

open GraphUtils Relation

namespace Heap

/-- A node stands behind an output: the inputs of a list are fed by its output, and it by the output. The other inputs the output
feeds keep their edge, and the other nodes reach one another as before. -/
structure InsertedAfter (h h' : Heap) (src : AnchorId) (dsts : List AnchorId) (n : NodeId) (q o : AnchorId) : Prop where
  fed : ∀ d ∈ dsts, h'.peers d = [o]
  source : h'.peers q = [src]
  kept : ∀ b ∈ h.peers src, b ∉ dsts → b ∈ h'.peers src
  acyclic : ∀ u, ¬ TransGen h'.AnyEdge u u
  reach : ∀ u v, u ≠ n → v ≠ n → (TransGen h'.AnyEdge u v ↔ TransGen h.AnyEdge u v)

/-- An output, inputs it feeds, and a node of its graph without links, with an input and an output. -/
structure Insertion (h : Heap) (src : AnchorId) (dsts : List AnchorId) (n : NodeId) (inputIndex outputIndex : BitVec 32)
    (q o : AnchorId) : Prop where
  held : h.Held src
  kind : h.kind src = .outData
  made : n < h.nodeCount
  input : Node.getInDataAnchor h n inputIndex.toInt = some q
  output : Node.getOutDataAnchor h n outputIndex.toInt = some o
  unlinked : ∀ a, h.owner a = n → h.peers a = []
  graph : (h.node (h.owner src)).ownerGraph = (h.node n).ownerGraph
  fed : ∀ d ∈ dsts, h.kind d = .inData ∧ src ∈ h.peers d ∧ (h.node (h.owner src)).ownerGraph = (h.node (h.owner d)).ownerGraph

end Heap

namespace InsertedNodesAux

open Cmd LinkListsAux MovedPeersAux

variable {h t u : Heap} {src q o c c' d : AnchorId} {dsts l l' ctl ctl' : List AnchorId} {n : NodeId} {i j : BitVec 32}

/-- Links to a list of inputs were moved from an output to another, and links to a list of control inputs from a control output
to another. -/
structure Inserted (h t : Heap) (src o c c' : AnchorId) (l ctl : List AnchorId) : Prop where
  sound : t.Sound
  same : h.SameButPeers t
  controls : ∀ p ∈ ctl, h.kind p = .inControl
  counts : ∀ x y, (t.peers x).count y + toward src l x y + toward src l y x + toward c ctl x y + toward c ctl y x =
    (h.peers x).count y + toward o l x y + toward o l y x + toward c' ctl x y + toward c' ctl y x

theorem Inserted.refl (hs : h.Sound) : Inserted h h src o c c' [] [] :=
  ⟨hs, SameButPeers.refl h, fun _ hp => absurd hp not_mem_nil, fun _ _ => by simp only [toward_nil]⟩

theorem Inserted.append (h₁ : Inserted h t src o c c' l ctl) (h₂ : Inserted t u src o c c' l' ctl') :
    Inserted h u src o c c' (l ++ l') (ctl ++ ctl') := by
  refine ⟨h₂.sound, SameButPeers.trans h₁.same h₂.same, fun p hp => ?_, fun x y => ?_⟩
  · rcases mem_append.mp hp with hp | hp
    · exact h₁.controls p hp
    · exact (h₁.same.kind p).symm.trans (h₂.controls p hp)
  · have e₁ := h₁.counts x y
    have e₂ := h₂.counts x y
    simp only [toward_append]
    omega

/-- A data link and then control links. -/
theorem Inserted.of_moved (h₁ : Moved h t src o l) (h₂ : Moved t u c c' ctl) (hctl : ∀ p ∈ ctl, h.kind p = .inControl) :
    Inserted h u src o c c' l ctl := by
  refine ⟨h₂.sound, SameButPeers.trans h₁.same h₂.same, hctl, fun x y => ?_⟩
  have e₁ := h₁.counts x y
  have e₂ := h₂.counts x y
  omega

/-- Moving the control edges of an output moves those to control inputs. -/
theorem movePeersOf_moves (hs : h.Sound) (hc : h.kind c = .outControl) (hc' : h.kind c' = .outControl) (hheld : h.Held c')
    (hne : c ≠ c') :
    ∃ t, ComputeGraph.movePeersOf addControlEdge .inControl c' c h = some (true, t) ∧
      Moved h t c c' (Anchor.getPeersOf h c .inControl) := by
  have hnot : ∀ {a}, h.kind a = .outControl → a ∉ Anchor.getPeersOf h c .inControl := by
    intro a ha hmem
    have := (mem_filter.mp hmem).2
    simp [ha] at this
  obtain ⟨t, ht, hmoved⟩ := moveEdges_moves hne hs (hnot hc) (hnot hc') hheld fun y => (filter_sublist).count_le y
  exact ⟨t, ht, hmoved⟩

/-- Counts of one item only make a list of one. -/
theorem eq_singleton_of_counts {l : List AnchorId} {a : AnchorId} (hl : ∀ y, l.count y = [a].count y) : l = [a] :=
  perm_singleton.mp (perm_iff_count.mpr hl)

section
variable (hs : h.Sound) (hd : h.Directed) (hi : h.Insertion src dsts n i j q o)
include hs hi

theorem heldInput : h.Held q ∧ h.kind q = .inData ∧ h.owner q = n :=
  have hq := CallAux.mem_of_getInDataAnchor hi.input
  ⟨hs.laid.held hi.made hq, hs.laid.kind n hi.made _ q hq, hs.laid.owner n hi.made _ q hq⟩

theorem heldOutput : h.Held o ∧ h.kind o = .outData ∧ h.owner o = n :=
  have ho := CallAux.mem_of_getOutDataAnchor hi.output
  ⟨hs.laid.held hi.made ho, hs.laid.kind n hi.made _ o ho, hs.laid.owner n hi.made _ o ho⟩

theorem heldControl : h.Held (h.node (h.owner src)).outControlAnchor ∧ h.kind (h.node (h.owner src)).outControlAnchor =
    .outControl ∧
    h.owner (h.node (h.owner src)).outControlAnchor = h.owner src :=
  controlAnchor (k := .outControl) hs hi.held.1 rfl

theorem heldNewControl : h.Held (h.node n).outControlAnchor ∧ h.kind (h.node n).outControlAnchor = .outControl ∧
    h.owner (h.node n).outControlAnchor = n :=
  controlAnchor (k := .outControl) hs hi.made rfl

variable {a b : AnchorId}

omit hs in
/-- An anchor with a link is none of the new node's. -/
theorem owner_ne (hb : b ∈ h.peers a) : h.owner a ≠ n := by
  intro ha
  rw [hi.unlinked a ha] at hb
  cases hb

/-- The links of an input that is to be moved, after others were. -/
theorem counts_dest (ht : Inserted (Anchor.linked h src q) t src o (h.node (h.owner src)).outControlAnchor
    (h.node n).outControlAnchor l ctl) (hmem : d ∈ dsts) (y : AnchorId) :
    (t.peers d).count y + (if y = src then l.count d else 0) = (h.peers d).count y + if y = o then l.count d else 0 := by
  obtain ⟨hk, hfed, -⟩ := hi.fed d hmem
  obtain ⟨-, -, hq⟩ := heldInput hs hi
  obtain ⟨-, hko, -⟩ := heldOutput hs hi
  obtain ⟨-, hkc, -⟩ := heldControl hs hi
  obtain ⟨-, hkc', -⟩ := heldNewControl hs hi
  have hne : ∀ {a}, h.kind a ≠ .inData → d ≠ a := fun ha e => ha (e ▸ hk)
  have hctl : ctl.count d = 0 := by
    refine count_eq_zero_of_not_mem fun hmem => ?_
    have := ht.controls d hmem
    rw [(Heap.sameLayout_linked h src q).kind, hk] at this
    cases this
  have hdq : d ≠ q := fun e => owner_ne hi hfed (e ▸ hq)
  have e₁ := ht.counts d y
  have e₂ := linked_counts h src q d y
  simp only [toward, hne (a := src) (by simp [hi.kind]), hne (a := o) (by simp [hko]), hne
    (by simp [hkc] : h.kind (h.node (h.owner src)).outControlAnchor ≠ .inData),
    hne (by simp [hkc'] : h.kind (h.node n).outControlAnchor ≠ .inData), if_false, hctl, ite_self] at e₁ e₂
  have hone : [q].count d = 0 := count_eq_zero_of_not_mem (by simpa using hdq)
  rw [hone, ite_self] at e₂
  omega

variable (hself : h.owner src ≠ n)
include hself

/-- A round moves an input not moved before whose only link is to the output. -/
theorem round_moves (flag : Bool) (ht : Inserted (Anchor.linked h src q) t src o (h.node (h.owner src)).outControlAnchor
    (h.node n).outControlAnchor l ctl) (hmem : d ∈ dsts) (hl : d ∉ l) (hpeers : h.peers d = [src]) :
    ∃ u, insertBefore src n (some o) flag (some d) t = some (true, u) ∧
      ∃ ctl', Inserted (Anchor.linked h src q) u src o (h.node (h.owner src)).outControlAnchor (h.node n).outControlAnchor
        (l ++ [d]) (ctl ++ ctl') := by
  obtain ⟨hk, hfed, hgraph⟩ := hi.fed d hmem
  obtain ⟨hheldo, hko, -⟩ := heldOutput hs hi
  obtain ⟨-, hkc, hoc⟩ := heldControl hs hi
  obtain ⟨hheldc', hkc', hoc'⟩ := heldNewControl hs hi
  have hsame := SameButPeers.trans (SameButPeers.linked h src q) ht.same
  have hds : d ≠ src := by
    rintro rfl
    exact absurd (hk.symm.trans hi.kind) (by decide)
  have htd : t.peers d = [src] := eq_singleton_of_counts fun y => by
    have := counts_dest hs hi ht hmem y
    rw [count_eq_zero_of_not_mem hl, ite_self, ite_self, hpeers] at this
    simpa using this
  have hback : d ∈ t.peers src := ht.sound.symm.mem (htd ▸ mem_singleton_self src)
  obtain ⟨m, hm, hsamem, hcountm, hmoved⟩ := moved_one ht.sound hback hds ((hsame.held o).mpr hheldo)
  have hfree : m.peers d = [] := by
    refine eq_nil_iff_forall_not_mem.mpr fun y hy => ?_
    have hpos := count_pos_iff.mpr hy
    have := hcountm d y
    simp only [toward, hds, if_false, htd, count_singleton, beq_iff_eq, eq_comm (a := src), beq_self_eq_true, if_true] at this
    omega
  have hlink : addDataEdge (some o) (some d) m = some (true, Anchor.linked m o d) := by
    simp [addDataEdge, addEdgeBy, OutDataAnchor.linkTo, Anchor.link, hfree]
  have hcheck : (t.node (t.owner src)).ownerGraph = (t.node (t.owner d)).ownerGraph := by
    rw [hsame.owner, hsame.owner, hsame.node]
    exact hgraph
  have hsame₁ : (Anchor.linked h src q).SameButPeers (Anchor.linked m o d) := SameButPeers.trans ht.same hmoved.same
  have hsameu := SameButPeers.trans (SameButPeers.linked h src q) hsame₁
  have hrun : insertBefore src n (some o) flag (some d) t = (do
      if !flag then return true
      ComputeGraph.movePeersOf addControlEdge .inControl (h.node n).outControlAnchor (h.node (h.owner src)).outControlAnchor :
        Cmd Heap Bool)
      (Anchor.linked m o d) := by
    simp only [insertBefore, get_bind_apply, hcheck, ne_eq, not_true_eq_false, if_false]
    rw [show removeEdge (some src) (some d) = Anchor.unlink src (some d) from rfl, bind_of_eq hm, bind_of_eq hlink, hsame.owner,
      hsame.node]
    rfl
  have hdata : Inserted t (Anchor.linked m o d) src o (h.node (h.owner src)).outControlAnchor (h.node n).outControlAnchor [d] [] :=
    Inserted.of_moved hmoved (Moved.refl hmoved.sound _ _) fun _ hp => absurd hp not_mem_nil
  cases flag with
  | false => exact ⟨_, hrun, [], ht.append hdata⟩
  | true =>
    obtain ⟨u, hu, hcontrols⟩ := movePeersOf_moves hmoved.sound ((hsameu.kind _).trans hkc) ((hsameu.kind _).trans hkc')
      ((hsameu.held _).mpr hheldc') fun e => hself (hoc.symm.trans (e ▸ hoc'))
    refine ⟨u, hrun.trans hu, _, ht.append (Inserted.of_moved hmoved hcontrols fun p hp => ?_)⟩
    rw [← hmoved.same.kind]
    simpa using (mem_filter.mp hp).2

/-- A round that succeeds moves an input not moved before whose only link is to the output. -/
theorem round_only {flag : Bool} (ht : Inserted (Anchor.linked h src q) t src o (h.node (h.owner src)).outControlAnchor
    (h.node n).outControlAnchor l ctl) (hmem : d ∈ dsts) (hr : insertBefore src n (some o) flag (some d) t = some (true, u)) :
    d ∉ l ∧ h.peers d = [src] := by
  obtain ⟨hk, hfed, hgraph⟩ := hi.fed d hmem
  have hso : src ≠ o := fun e => hself (e ▸ (heldOutput hs hi).2.2)
  have hcount := counts_dest hs hi ht hmem
  simp only [insertBefore, get_bind_apply] at hr
  split at hr
  · simp at hr
  obtain ⟨ok, m, hm, hr⟩ := bind_eq_some.mp hr
  obtain ⟨ok', w, hw, hr⟩ := bind_eq_some.mp hr
  have hunlink : Anchor.unlink src (some d) t = some (ok, m) := hm
  have hlink : OutDataAnchor.linkTo o (some d) m = some (ok', w) := hw
  have hfree : m.peers d = [] := by
    cases ok' with
    | false => simp at hr
    | true =>
      rcases link_cases hlink with ⟨hfalse, -⟩ | ⟨-, x, hx, hfree, -⟩
      · cases hfalse
      · obtain rfl := Option.some.inj hx
        simpa using hfree
  rcases unlink_cases hunlink with ⟨-, rfl⟩ | ⟨rfl, -⟩
  · -- no edge to remove: the input was moved before, and is linked
    have e₁ := hcount src
    have e₂ := hcount o
    simp only [hfree, count_nil, if_true, if_neg hso, if_neg hso.symm] at e₁ e₂
    have := count_pos_iff.mpr hfed
    omega
  · obtain ⟨hne, hdmem, -, hpeers⟩ := unlink_true ht.sound hunlink
    have htd : t.peers d = [src] := by
      have hback := ht.sound.symm.mem hdmem
      rw [hpeers, if_pos rfl] at hfree
      obtain ⟨l₁, l₂, -, hsplit, hrest⟩ := exists_erase_eq hback
      rw [hrest] at hfree
      obtain ⟨rfl, rfl⟩ := append_eq_nil_iff.mp hfree
      exact hsplit
    have hnot : d ∉ l := by
      have e₂ := hcount o
      simp only [htd, count_singleton, beq_iff_eq, hso, if_false, if_true, if_neg hso.symm] at e₂
      exact count_eq_zero.mp (by omega)
    refine ⟨hnot, eq_singleton_of_counts fun y => ?_⟩
    have := hcount y
    rw [count_eq_zero_of_not_mem hnot, ite_self, ite_self, htd] at this
    simpa using this.symm

/-- The rounds go through exactly when the inputs are distinct and have no other link, and then all of them are moved. -/
theorem rounds_succeed (flag : Bool) : ∀ (rest before : List AnchorId) (t : Heap) (ctl : List AnchorId), dsts = before ++ rest →
    Inserted (Anchor.linked h src q) t src o (h.node (h.owner src)).outControlAnchor (h.node n).outControlAnchor before ctl →
    before.Nodup → (∀ d ∈ before, h.peers d = [src]) →
    Succeeds (dsts.Nodup ∧ ∀ d ∈ dsts, h.peers d = [src]) (Cmd.eachOk (insertBefore src n (some o) flag) (rest.map some)) t fun u =>
      (dsts.Nodup ∧ ∀ d ∈ dsts, h.peers d = [src]) ∧ ∃ ctl', Inserted (Anchor.linked h src q) u src o
        (h.node (h.owner src)).outControlAnchor (h.node n).outControlAnchor dsts ctl' := by
  intro rest
  induction rest with
  | nil =>
    intro before t ctl hl ht hnodup hsingle
    rw [append_nil] at hl
    subst hl
    exact Succeeds.of_eq rfl ⟨⟨hnodup, hsingle⟩, ctl, ht⟩
  | cons d rest ih =>
    intro before t ctl hl ht hnodup hsingle
    have hmem : d ∈ dsts := hl ▸ mem_append_right _ mem_cons_self
    have hnext : ∀ {u ctl'}, d ∉ before → h.peers d = [src] → Inserted (Anchor.linked h src q) u src o
        (h.node (h.owner src)).outControlAnchor (h.node n).outControlAnchor (before ++ [d]) (ctl ++ ctl') →
        Succeeds (dsts.Nodup ∧ ∀ d ∈ dsts, h.peers d = [src])
          (Cmd.eachOk (insertBefore src n (some o) flag) (rest.map some)) u fun u =>
          (dsts.Nodup ∧ ∀ d ∈ dsts, h.peers d = [src]) ∧ ∃ ctl', Inserted (Anchor.linked h src q) u src o
            (h.node (h.owner src)).outControlAnchor (h.node n).outControlAnchor dsts ctl' := by
      intro u ctl' hd hpeers hu
      refine ih (before ++ [d]) u (ctl ++ ctl') (by rw [hl, append_assoc]; rfl) hu ?_ fun x hx => ?_
      · exact nodup_append.mpr ⟨hnodup, nodup_singleton d, fun a ha b hb hab => hd (mem_singleton.mp hb ▸ hab ▸ ha)⟩
      · rcases mem_append.mp hx with hx | hx
        · exact hsingle x hx
        · rw [mem_singleton.mp hx]
          exact hpeers
    refine Succeeds.andThen (P := fun u => d ∉ before ∧ h.peers d = [src] ∧ ∃ ctl', Inserted (Anchor.linked h src q) u src o
      (h.node (h.owner src)).outControlAnchor (h.node n).outControlAnchor (before ++ [d]) (ctl ++ ctl'))
        ⟨fun u hu => ?_, fun hp => ?_⟩
      fun u ⟨hd, hpeers, ctl', hu⟩ => hnext hd hpeers hu
    · obtain ⟨hd, hpeers⟩ := round_only hs hi hself ht hmem hu
      obtain ⟨v, hv, hins⟩ := round_moves hs hi hself flag ht hmem hd hpeers
      obtain rfl : u = v := (Prod.mk.inj (Option.some.inj (hu.symm.trans hv))).2
      exact ⟨hd, hpeers, hins⟩
    · have hd : d ∉ before := fun hb => by
        rw [hl] at hp
        exact (nodup_append.mp hp.1).2.2 d hb d mem_cons_self rfl
      obtain ⟨u, hu, -⟩ := round_moves hs hi hself flag ht hmem hd (hp.2 d hmem)
      exact ⟨u, hu⟩

omit hself in
/-- After the link to the new node the rounds follow. -/
theorem insertNodeAfter_eq (originalType : OpId → String) : insertNodeAfter originalType (some src) (dsts.map some) (some n) i j h =
    Cmd.eachOk (insertBefore src n (some o) !isSwitchType (NodeUtils.getNodeType originalType h (h.owner src))) (dsts.map some)
      (Anchor.linked h src q) := by
  have hfree : h.peers q = [] := hi.unlinked q (heldInput hs hi).2.2
  have hlink : addDataEdge (some src) (some q) h = some (true, Anchor.linked h src q) := by
    simp [addDataEdge, addEdgeBy, OutDataAnchor.linkTo, Anchor.link, hfree]
  simp only [insertNodeAfter, get_bind_apply, hi.graph, ne_eq, not_true_eq_false, if_false, hi.input, hi.output]
  rw [bind_of_eq hlink]
  rfl

/-- The call goes through exactly when the inputs are distinct and have no other link, and then all of them are moved. -/
theorem insertNodeAfter_succeeds (originalType : OpId → String) :
    Succeeds (dsts.Nodup ∧ ∀ d ∈ dsts, h.peers d = [src]) (insertNodeAfter originalType (some src) (dsts.map some) (some n) i j) h
      fun u => (dsts.Nodup ∧ ∀ d ∈ dsts, h.peers d = [src]) ∧ ∃ ctl, Inserted (Anchor.linked h src q) u src o
        (h.node (h.owner src)).outControlAnchor (h.node n).outControlAnchor dsts ctl := by
  unfold Succeeds
  rw [insertNodeAfter_eq hs hi]
  exact rounds_succeed hs hi hself _ dsts [] (Anchor.linked h src q) [] rfl
    (Inserted.refl (hs.linked hi.held (heldInput hs hi).1)) nodup_nil fun _ hd => absurd hd not_mem_nil

/-! ## The edges -/

variable (hu : Inserted (Anchor.linked h src q) u src o (h.node (h.owner src)).outControlAnchor
    (h.node n).outControlAnchor dsts ctl)
include hu

omit hself in
/-- How often an output is linked to an anchor afterwards. -/
theorem link_count (ha : (h.kind a).isIn = false) :
    (u.peers a).count b + toward src dsts a b + toward (h.node (h.owner src)).outControlAnchor ctl a b =
      (h.peers a).count b + toward src [q] a b + toward o dsts a b + toward (h.node n).outControlAnchor ctl a b := by
  have hne : ∀ {x}, (h.kind x).isIn = true → a ≠ x := by
    rintro x hx rfl
    rw [ha] at hx
    cases hx
  have hdsts : dsts.count a = 0 := count_eq_zero_of_not_mem fun hmem => hne (by rw [(hi.fed a hmem).1]; rfl) rfl
  have hctl : ctl.count a = 0 := count_eq_zero_of_not_mem fun hmem => hne
    (by rw [← (Heap.sameLayout_linked h src q).kind, hu.controls a hmem]; rfl) rfl
  have hq : [q].count a = 0 := count_eq_zero_of_not_mem
    (by simpa using hne (x := q) (by rw [(heldInput hs hi).2.1]; rfl))
  have hnone : ∀ (c : AnchorId) (l : List AnchorId), l.count a = 0 → toward c l b a = 0 := by
    intro c l hl
    rw [toward, hl, ite_self]
  have e₁ := hu.counts a b
  rw [linked_counts, hnone _ _ hdsts, hnone _ _ hdsts, hnone _ _ hctl, hnone _ _ hctl, hnone _ _ hq] at e₁
  omega

omit hu in
/-- The outputs links are moved between are four. -/
theorem outputs_apart : src ≠ o ∧ src ≠ (h.node (h.owner src)).outControlAnchor ∧ src ≠ (h.node n).outControlAnchor ∧
    o ≠ (h.node (h.owner src)).outControlAnchor ∧ o ≠ (h.node n).outControlAnchor ∧
    (h.node (h.owner src)).outControlAnchor ≠ (h.node n).outControlAnchor := by
  obtain ⟨-, hko, hoo⟩ := heldOutput hs hi
  obtain ⟨-, hkc, hoc⟩ := heldControl hs hi
  obtain ⟨-, hkc', hoc'⟩ := heldNewControl hs hi
  have hkind : ∀ {a b}, h.kind a = .outData → h.kind b = .outControl → a ≠ b := by
    rintro a b ha hb rfl
    exact absurd (ha.symm.trans hb) (by decide)
  have howner : ∀ {a b}, h.owner a = h.owner src → h.owner b = n → a ≠ b := by
    rintro a b ha hb rfl
    exact hself (ha.symm.trans hb)
  exact ⟨howner rfl hoo, hkind hi.kind hkc, hkind hi.kind hkc', hkind hko hkc, hkind hko hkc', howner hoc hoc'⟩

/-- The links taken from the control output were its links. -/
theorem mem_controls {p : AnchorId} (hp : p ∈ ctl) : p ∈ h.peers (h.node (h.owner src)).outControlAnchor := by
  obtain ⟨-, hsc, -, hoc, -, hcc⟩ := outputs_apart hs hi hself
  have e₁ := link_count hs hi hu (a := (h.node (h.owner src)).outControlAnchor) (b := p) (by rw [(heldControl hs hi).2.1]; rfl)
  have hpos := count_pos_iff.mpr hp
  refine count_pos_iff.mp ?_
  simp only [toward, hsc.symm, hoc.symm, hcc, if_false, if_true] at e₁
  omega

omit hs hself hu in
theorem input_not_mem : h.owner q = n → q ∉ dsts := by
  intro hq hmem
  exact owner_ne hi (hi.fed q hmem).2.1 hq

/-- The links made: to the new node, and from it. -/
theorem links_made : q ∈ u.peers src ∧ (∀ d ∈ dsts, d ∈ u.peers o) ∧ ∀ p ∈ ctl, p ∈ u.peers (h.node n).outControlAnchor := by
  obtain ⟨hso, hsc, hsc', hoc, hoc', hcc⟩ := outputs_apart hs hi hself
  refine ⟨?_, fun d hd => ?_, fun p hp => ?_⟩
  · have e₁ := link_count hs hi hu (a := src) (b := q) (by rw [hi.kind]; rfl)
    have hq : dsts.count q = 0 := count_eq_zero_of_not_mem (input_not_mem hi (heldInput hs hi).2.2)
    refine count_pos_iff.mp ?_
    simp only [toward, hso, hsc, hsc', hq, if_false, if_true, count_singleton_self] at e₁
    omega
  · have e₁ := link_count hs hi hu (a := o) (b := d) (by rw [(heldOutput hs hi).2.1]; rfl)
    have hpos := count_pos_iff.mpr hd
    refine count_pos_iff.mp ?_
    simp only [toward, hso.symm, hoc, hoc', if_false, if_true] at e₁
    omega
  · have e₁ := link_count hs hi hu (a := (h.node n).outControlAnchor) (b := p) (by rw [(heldNewControl hs hi).2.1]; rfl)
    have hpos := count_pos_iff.mpr hp
    refine count_pos_iff.mp ?_
    simp only [toward, hsc'.symm, hcc.symm, hoc'.symm, if_false, if_true] at e₁
    omega

omit hself in
/-- A link afterwards was there before or is one of those made. -/
theorem link_after (ha : (h.kind a).isIn = false) (hb : b ∈ u.peers a) : b ∈ h.peers a ∨ (a = src ∧ b = q) ∨
    (a = o ∧ b ∈ dsts) ∨ (a = (h.node n).outControlAnchor ∧ b ∈ ctl) := by
  have e₁ := link_count hs hi hu ha (b := b)
  have hpos := count_pos_iff.mpr hb
  have htoward : ∀ {c : AnchorId} {l : List AnchorId}, 0 < toward c l a b → a = c ∧ b ∈ l := by
    intro c l hlt
    unfold toward at hlt
    split at hlt
    · exact ⟨‹_›, count_pos_iff.mp hlt⟩
    · omega
  by_cases h₁ : 0 < (h.peers a).count b
  · exact .inl (count_pos_iff.mp h₁)
  · by_cases h₂ : 0 < toward src [q] a b
    · exact .inr (.inl ⟨(htoward h₂).1, mem_singleton.mp (htoward h₂).2⟩)
    · by_cases h₃ : 0 < toward o dsts a b
      · exact .inr (.inr (.inl (htoward h₃)))
      · exact .inr (.inr (.inr (htoward (by omega))))

omit hself in
/-- A link from before is there afterwards or is one of those taken. -/
theorem link_before (ha : (h.kind a).isIn = false) (hb : b ∈ h.peers a) : b ∈ u.peers a ∨ (a = src ∧ b ∈ dsts) ∨
    (a = (h.node (h.owner src)).outControlAnchor ∧ b ∈ ctl) := by
  have e₁ := link_count hs hi hu ha (b := b)
  have hpos := count_pos_iff.mpr hb
  have htoward : ∀ {c : AnchorId} {l : List AnchorId}, 0 < toward c l a b → a = c ∧ b ∈ l := by
    intro c l hlt
    unfold toward at hlt
    split at hlt
    · exact ⟨‹_›, count_pos_iff.mp hlt⟩
    · omega
  by_cases h₁ : 0 < (u.peers a).count b
  · exact .inl (count_pos_iff.mp h₁)
  · by_cases h₂ : 0 < toward src dsts a b
    · exact .inr (.inl (htoward h₂))
    · exact .inr (.inr (htoward (by omega)))

/-- What is left when the new node is taken out again are the edges from before. -/
theorem around : Contract.Around u.AnyEdge h.AnyEdge n := by
  have hsame := SameButPeers.trans (SameButPeers.linked h src q) hu.same
  obtain ⟨hq, hdsts, hctl⟩ := links_made hs hi hself hu
  have hown : ∀ {a b}, b ∈ h.peers a → h.owner a ≠ n ∧ h.owner b ≠ n :=
    fun hb => ⟨owner_ne hi hb, owner_ne hi (hs.symm.mem hb)⟩
  obtain ⟨-, hqk, hqo⟩ := heldInput hs hi
  refine ⟨?_, ?_, ?_, ?_⟩
  · rintro u v ⟨a, b, hb, -, rfl, -, -⟩
    exact (hown hb).1
  · rintro u v ⟨a, b, hb, -, -, rfl, -⟩
    exact (hown hb).2
  · rintro x y hx hy ⟨a, b, hb, hk, rfl, rfl, -⟩
    rw [hsame.kind] at hk
    rw [hsame.owner] at hx hy
    rcases link_after hs hi hu hk hb with hb | ⟨rfl, rfl⟩ | ⟨rfl, -⟩ | ⟨rfl, -⟩
    · exact ⟨a, b, hb, hk, (hsame.owner a).symm, (hsame.owner b).symm, rfl⟩
    · exact absurd hqo hy
    · exact absurd (heldOutput hs hi).2.2 hx
    · exact absurd (heldNewControl hs hi).2.2 hx
  · rintro x y ⟨a, b, hb, hk, rfl, rfl, -⟩
    have hto : u.AnyEdge (h.owner src) n :=
      ⟨src, q, hq, by rw [hsame.kind, hi.kind]; rfl, hsame.owner src, (hsame.owner q).trans hqo, rfl⟩
    rcases link_before hs hi hu hk hb with hb | ⟨rfl, hmoved⟩ | ⟨rfl, hmoved⟩
    · exact .inl ⟨a, b, hb, (hsame.kind a).symm ▸ hk, hsame.owner a, hsame.owner b, rfl⟩
    · obtain ⟨-, hko, hoo⟩ := heldOutput hs hi
      exact .inr ⟨hto, o, b, hdsts b hmoved, by rw [hsame.kind, hko]; rfl, (hsame.owner o).trans hoo, hsame.owner b, rfl⟩
    · obtain ⟨-, hkc', hoc'⟩ := heldNewControl hs hi
      rw [(heldControl hs hi).2.2]
      exact .inr ⟨hto, _, b, hctl b hmoved, by rw [hsame.kind, hkc']; rfl, (hsame.owner _).trans hoc', hsame.owner b, rfl⟩

/-- The nodes before the new one and those behind it were joined before. -/
theorem past {x y : NodeId} (hx : u.AnyEdge x n) (hy : u.AnyEdge n y) : h.AnyEdge x y := by
  have hsame := SameButPeers.trans (SameButPeers.linked h src q) hu.same
  have hown : ∀ {a b}, b ∈ h.peers a → h.owner a ≠ n ∧ h.owner b ≠ n :=
    fun hb => ⟨owner_ne hi hb, owner_ne hi (hs.symm.mem hb)⟩
  have hfed : ∀ {d}, d ∈ dsts → d ∈ h.peers src := fun hd => hs.symm.mem (hi.fed _ hd).2.1
  have hsrc : x = h.owner src := by
    obtain ⟨a, b, hb, hk, rfl, hbn, -⟩ := hx
    rw [hsame.kind] at hk
    rw [hsame.owner] at hbn
    rcases link_after hs hi hu hk hb with hb | ⟨rfl, -⟩ | ⟨-, hb⟩ | ⟨-, hb⟩
    · exact absurd hbn (hown hb).2
    · exact hsame.owner a
    · exact absurd hbn (hown (hfed hb)).2
    · exact absurd hbn (hown (mem_controls hs hi hself hu hb)).2
  obtain ⟨a, b, hb, hk, han, rfl, -⟩ := hy
  rw [hsame.kind] at hk
  rw [hsame.owner] at han
  rw [hsrc, hsame.owner]
  rcases link_after hs hi hu hk hb with hb | ⟨rfl, -⟩ | ⟨-, hb⟩ | ⟨-, hb⟩
  · exact absurd han (hown hb).1
  · exact absurd han hself
  · exact ⟨src, b, hfed hb, by rw [hi.kind]; rfl, rfl, rfl, rfl⟩
  · obtain ⟨-, hkc, hoc⟩ := heldControl hs hi
    exact ⟨_, b, mem_controls hs hi hself hu hb, by rw [hkc]; rfl, hoc, rfl, rfl⟩

end

end InsertedNodesAux

open InsertedNodesAux MovedPeersAux LinkListsAux

/-- The call returns with success, and the node stands behind the output. -/
def Heap.InsertsAfter (h : Heap) (originalType : OpId → String) (src : AnchorId) (dsts : List AnchorId) (n : NodeId)
    (inputIndex outputIndex : BitVec 32) (q o : AnchorId) : Prop :=
  ∃ h', insertNodeAfter originalType (some src) (dsts.map some) (some n) inputIndex outputIndex h = some (true, h') ∧
    h.InsertedAfter h' src dsts n q o

/-- A node other than its source is put behind an output exactly when the inputs to move are distinct and have no other link, and
then it stands between them and the output, and the graph reaches what it reached. -/
theorem insertNodeAfter_iff (originalType : OpId → String) (h : Heap) (src : AnchorId) (dsts : List AnchorId) (n : NodeId)
    (inputIndex outputIndex : BitVec 32) (q o : AnchorId) (hs : h.Sound) (hacyclic : ∀ u, ¬ TransGen h.AnyEdge u u)
    (hi : h.Insertion src dsts n inputIndex outputIndex q o) (hself : h.owner src ≠ n) :
    ((∃ h', insertNodeAfter originalType (some src) (dsts.map some) (some n) inputIndex outputIndex h = some (true, h')) ↔
        dsts.Nodup ∧ ∀ d ∈ dsts, h.peers d = [src]) ∧
      ∀ h', insertNodeAfter originalType (some src) (dsts.map some) (some n) inputIndex outputIndex h = some (true, h') →
        h.InsertedAfter h' src dsts n q o := by
  obtain ⟨hspec, hrun⟩ := insertNodeAfter_succeeds hs hi hself originalType
  refine ⟨⟨fun ⟨h', hr⟩ => (hspec h' hr).1, hrun⟩, fun h' hr => ?_⟩
  obtain ⟨⟨hnodup, hsingle⟩, ctl, hu⟩ := hspec h' hr
  have haround := around hs hi hself hu
  have hsource : h.AnyEdge n n → False := fun ⟨a, b, hb, _, ha, _⟩ => owner_ne hi hb ha
  have hpast : ∀ x y, h'.AnyEdge x n → h'.AnyEdge n y → TransGen h.AnyEdge x y :=
    fun x y hx hy => .single (past hs hi hself hu hx hy)
  have hloop : ¬ h'.AnyEdge n n := fun hnn => hsource (past hs hi hself hu hnn hnn)
  obtain ⟨hheldq, hkq, hoq⟩ := heldInput hs hi
  obtain ⟨hso, hsc, hsc', -⟩ := outputs_apart hs hi hself
  have hsq : src ≠ q := by
    rintro rfl
    exact absurd (hi.kind.symm.trans hkq) (by decide)
  refine ⟨fun d hd => eq_singleton_of_counts fun y => ?_, eq_singleton_of_counts fun y => ?_, fun b hb hbd => ?_,
    haround.acyclic_of hloop hpast hacyclic, fun x y hx hy => ((haround.iff hloop).mpr hpast x y hx hy).symm⟩
  · have e₁ := counts_dest hs hi hu hd y
    have hone : dsts.count d = 1 := count_eq_one_of_mem hnodup hd
    rw [hsingle d hd, hone] at e₁
    simp only [count_singleton, beq_iff_eq, eq_comm (b := y)] at e₁ ⊢
    omega
  · have hkinds : ∀ {x}, h.kind x ≠ .inData → q ≠ x := fun hx e => hx (e ▸ hkq)
    have hctl : ctl.count q = 0 := count_eq_zero_of_not_mem fun hmem => by
      have := hu.controls q hmem
      rw [(Heap.sameLayout_linked h src q).kind, hkq] at this
      cases this
    have e₁ := hu.counts q y
    rw [linked_counts, hi.unlinked q hoq] at e₁
    simp only [toward, hsq.symm, hkinds (x := o) (by simp [(heldOutput hs hi).2.1]),
      hkinds (by simp [(heldControl hs hi).2.1] : h.kind (h.node (h.owner src)).outControlAnchor ≠ .inData),
      hkinds (by simp [(heldNewControl hs hi).2.1] : h.kind (h.node n).outControlAnchor ≠ .inData), if_false, hctl,
      count_eq_zero_of_not_mem (input_not_mem hi hoq), ite_self, count_singleton_self, count_nil] at e₁
    simp only [count_singleton, beq_iff_eq, eq_comm (a := src)]
    omega
  · rcases link_before hs hi hu (by rw [hi.kind]; rfl) hb with hb | ⟨-, hb⟩ | ⟨he, -⟩
    · exact hb
    · exact absurd hb hbd
    · exact absurd he hsc

namespace InsertedNodesWitness

/-- A source, a reader and a node to put between them. Control anchors come first. -/
def nodes : List LinkCall :=
  [.newOp { opDef := { name := "a", type := "Data" }, outputsDesc := [{}] }, .newNode 0,
    .newOp { opDef := { name := "b", type := "Relu" }, inputsDesc := [{}] }, .newNode 1,
    .newOp { opDef := { name := "m", type := "Cast" }, inputsDesc := [{}], outputsDesc := [{}] }, .newNode 2,
    .addDataEdge (some 2) (some 5), .addControlEdge (some 1) (some 3)]

/-- The source feeds and controls the reader. -/
def fed : Heap := GraphSteps.addAll 0 ((LinkCall.runAll nodes).getD .empty) [0, 1, 2]

/-- The source's control output is linked to the reader's input too. -/
def linkedTwice : Heap := GraphSteps.addAll 0
  ((LinkCall.runAll (nodes ++ [.outControlLinkToData 1 (some 5)])).getD .empty) [0, 1, 2]

theorem sound_fed : fed.Sound := GraphSteps.sound_addAll 0 _ (sound_runAll nodes _ (by decide +kernel) rfl)

theorem sound_linkedTwice : linkedTwice.Sound :=
  GraphSteps.sound_addAll 0 _ (sound_runAll (nodes ++ [.outControlLinkToData 1 (some 5)]) _ (by decide +kernel) rfl)

/-- Each anchor of a node is one of those made, and those have no links. -/
theorem unlinked_of {h : Heap} (hs : h.Sound) {n : NodeId} (hall : ∀ a < h.anchorCount, h.owner a = n → h.peers a = []) :
    ∀ a, h.owner a = n → h.peers a = [] := by
  intro a ha
  by_cases hlt : a < h.anchorCount
  · exact hall a hlt ha
  · exact AnchorAux.peers_of_not_made hs (Nat.le_of_not_lt hlt)

/-- The node is put behind the source. -/
theorem insertion_fed : fed.Insertion 2 [5] 2 0 0 8 9 :=
  ⟨by decide +kernel, by decide +kernel, by decide +kernel, by decide +kernel, by decide +kernel,
    unlinked_of sound_fed (by decide +kernel), by decide +kernel, by decide +kernel⟩

theorem acyclic_fed : ∀ u, ¬ TransGen fed.AnyEdge u u := IsolateAux.acyclic_of_lt sound_fed (by decide +kernel)

theorem insertNodeAfter_fed : fed.InsertsAfter (fun _ => "") 2 [5] 2 0 0 8 9 :=
  have hiff := insertNodeAfter_iff (fun _ => "") fed 2 [5] 2 0 0 8 9 sound_fed acyclic_fed insertion_fed (by decide +kernel)
  have ⟨h', hr⟩ := hiff.1.mpr ⟨by decide, by decide +kernel⟩
  ⟨h', hr, hiff.2 h' hr⟩

/-- A call that fails puts nothing behind. -/
theorem not_insertsAfter {originalType : OpId → String} {h : Heap} {src q o : AnchorId} {dsts : List AnchorId} {n : NodeId}
    {i j : BitVec 32}
    (hr : (insertNodeAfter originalType (some src) (dsts.map some) (some n) i j h).any (fun r => !r.1) = true) :
    ¬ h.InsertsAfter originalType src dsts n i j q o := by
  rintro ⟨h', hr', -⟩
  rw [hr'] at hr
  cases hr

/-- An input listed twice, an input with another link and an output of the node itself each stand in the way. -/
theorem insertNodeAfter_false :
    (¬ ∀ (originalType : OpId → String) (h : Heap) (src : AnchorId) (dsts : List AnchorId) (n : NodeId)
      (inputIndex outputIndex : BitVec 32) (q o : AnchorId), h.Sound → (∀ u, ¬ TransGen h.AnyEdge u u) →
      h.Insertion src dsts n inputIndex outputIndex q o → h.InsertsAfter originalType src dsts n inputIndex outputIndex q o) ∧
    (fed.Insertion 2 [5, 5] 2 0 0 8 9 ∧ ¬ fed.InsertsAfter (fun _ => "") 2 [5, 5] 2 0 0 8 9) ∧
    (linkedTwice.Insertion 2 [5] 2 0 0 8 9 ∧ ¬ linkedTwice.InsertsAfter (fun _ => "") 2 [5] 2 0 0 8 9) ∧
    fed.Insertion 9 [] 2 0 0 8 9 ∧ ¬ fed.InsertsAfter (fun _ => "") 9 [] 2 0 0 8 9 := by
  have hrepeated : fed.Insertion 2 [5, 5] 2 0 0 8 9 :=
    ⟨by decide +kernel, by decide +kernel, by decide +kernel, by decide +kernel, by decide +kernel,
      unlinked_of sound_fed (by decide +kernel), by decide +kernel, by decide +kernel⟩
  have hfails : ¬ fed.InsertsAfter (fun _ => "") 2 [5, 5] 2 0 0 8 9 := not_insertsAfter (by decide +kernel)
  refine ⟨fun hall => hfails (hall _ fed 2 [5, 5] 2 0 0 8 9 sound_fed acyclic_fed hrepeated), ⟨hrepeated, hfails⟩,
    ⟨?_, not_insertsAfter (by decide +kernel)⟩, ?_, ?_⟩
  · exact ⟨by decide +kernel, by decide +kernel, by decide +kernel, by decide +kernel, by decide +kernel,
      unlinked_of sound_linkedTwice (by decide +kernel), by decide +kernel, by decide +kernel⟩
  · exact ⟨by decide +kernel, by decide +kernel, by decide +kernel, by decide +kernel, by decide +kernel,
      unlinked_of sound_fed (by decide +kernel), by decide +kernel, by decide +kernel⟩
  · rintro ⟨h', hr, hins⟩
    obtain ⟨t, ht, hloop⟩ : ∃ t, insertNodeAfter (fun _ => "") (some 9) [] (some 2) 0 0 fed = some (true, t) ∧
        decide (8 ∈ t.peers 9 ∧ (t.kind 9).isIn = false ∧ t.owner 9 = 2 ∧ t.owner 8 = 2) = true :=
      Cmd.exists_of_any (by decide +kernel)
    obtain rfl : h' = t := (Prod.mk.inj (Option.some.inj (hr.symm.trans ht))).2
    obtain ⟨hmem, hk, ho, ho'⟩ := of_decide_eq_true hloop
    exact hins.acyclic 2 (.single ⟨9, 8, hmem, hk, ho, ho', rfl⟩)

end InsertedNodesWitness

end Metadef
