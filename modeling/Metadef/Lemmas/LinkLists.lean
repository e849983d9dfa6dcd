import Metadef.Lemmas.Loading

/-!
# Runs of links

A reader that makes the links its requests ask for. Where each request finds its anchors, and no data input that has a link or is
asked for before is asked for again, every link is made.
-/

namespace Metadef

open List

/-- Two heaps agree on everything but peers. -/
structure Heap.SameButPeers (h h' : Heap) : Prop extends h.SameLayout h' where
  opCount : h'.opCount = h.opCount
  graphCount : h'.graphCount = h.graphCount
  op : h'.op = h.op
  graph : h'.graph = h.graph

namespace LinkListsAux

open Cmd

variable {h t u : Heap} {a b : AnchorId} {n : NodeId} {nodeMap : OrderedMap String NodeId} {f : NodeNameNodeReq → Cmd Heap Bool}
  {l : List NodeNameNodeReq} {item : NodeNameNodeReq} {e : AnchorId × AnchorId}

/-! ## Lists of links -/

/-- The heap after links between pairs of anchors. -/
def linkAll : List (AnchorId × AnchorId) → Heap → Heap
  | [], h => h
  | e :: l, h => linkAll l (Anchor.linked h e.1 e.2)

theorem SameButPeers.refl (h : Heap) : h.SameButPeers h := ⟨Heap.SameLayout.refl h, rfl, rfl, rfl, rfl⟩

theorem SameButPeers.trans (h₁ : h.SameButPeers t) (h₂ : t.SameButPeers u) : h.SameButPeers u :=
  ⟨h₁.toSameLayout.trans h₂.toSameLayout, h₂.opCount.trans h₁.opCount, h₂.graphCount.trans h₁.graphCount, h₂.op.trans h₁.op,
    h₂.graph.trans h₁.graph⟩

theorem SameButPeers.linked (h : Heap) (a b : AnchorId) : h.SameButPeers (Anchor.linked h a b) :=
  ⟨Heap.sameLayout_linked h a b, rfl, rfl, rfl, rfl⟩

theorem SameButPeers.linkAll (l : List (AnchorId × AnchorId)) : ∀ h : Heap, h.SameButPeers (linkAll l h) := by
  induction l with
  | nil => exact SameButPeers.refl
  | cons e l ih => exact fun h => SameButPeers.trans (SameButPeers.linked h e.1 e.2) (ih _)

/-- Links between held anchors keep a heap sound. -/
theorem sound_linkAll : ∀ {l : List (AnchorId × AnchorId)} {h : Heap}, h.Sound → (∀ e ∈ l, h.Held e.1 ∧ h.Held e.2) →
    (LinkListsAux.linkAll l h).Sound := by
  intro l
  induction l with
  | nil => exact fun hs _ => hs
  | cons e l ih =>
    intro h hs hl
    obtain ⟨ha, hb⟩ := hl e mem_cons_self
    refine ih (hs.linked ha hb) fun d hd => ?_
    have hheld := Heap.SameLayout.held (Heap.sameLayout_linked h e.1 e.2)
    rw [hheld, hheld]
    exact hl d (mem_cons_of_mem e hd)

/-- The peers of the second end of a link. -/
theorem linked_peers_snd (hab : a ≠ b) : (Anchor.linked h a b).peers b = h.peers b ++ [a] := by
  simp [Anchor.linked, hab.symm]

theorem linked_peers_of_ne {x : AnchorId} (ha : x ≠ a) (hb : x ≠ b) : (Anchor.linked h a b).peers x = h.peers x := by
  simp [Anchor.linked, ha, hb]

/-- An anchor no link leaves by gets the sources of the links to it. -/
theorem peers_linkAll (l : List (AnchorId × AnchorId)) : ∀ {h : Heap}, (∀ e ∈ l, e.1 ≠ b) →
    (linkAll l h).peers b = h.peers b ++ (l.filter fun e => e.2 = b).map Prod.fst := by
  induction l with
  | nil => simp [LinkListsAux.linkAll]
  | cons e l ih =>
    intro h hsrc
    have hne : e.1 ≠ b := hsrc e mem_cons_self
    rw [LinkListsAux.linkAll, ih fun d hd => hsrc d (mem_cons_of_mem e hd)]
    by_cases hb : e.2 = b
    · subst hb
      rw [linked_peers_snd hne, filter_cons_of_pos (by simp), map_cons, append_assoc, singleton_append]
    · rw [linked_peers_of_ne hne.symm fun e => hb e.symm, filter_cons_of_neg (by simpa using hb)]

/-- An anchor that is no end of a link keeps its peers. -/
theorem peers_linkAll_of_not_mem (l : List (AnchorId × AnchorId)) (hsrc : ∀ e ∈ l, e.1 ≠ b) (hdst : ∀ e ∈ l, e.2 ≠ b) :
    (linkAll l h).peers b = h.peers b := by
  rw [peers_linkAll l hsrc, filter_eq_nil_iff.mpr (by simpa using hdst)]
  simp

/-- What links add to the peers of an anchor. -/
def addedPeers (l : List (AnchorId × AnchorId)) (x : AnchorId) : List AnchorId :=
  l.flatMap fun e => (if e.1 = x then [e.2] else []) ++ if e.2 = x then [e.1] else []

theorem mem_addedPeers {l : List (AnchorId × AnchorId)} {x y : AnchorId} : y ∈ addedPeers l x ↔ (x, y) ∈ l ∨ (y, x) ∈ l := by
  simp only [addedPeers, mem_flatMap, mem_append]
  constructor
  · rintro ⟨⟨c, d⟩, he, hy | hy⟩
    · split at hy
      · rename_i hc
        rw [mem_singleton.mp hy, ← hc]
        exact .inl he
      · cases hy
    · split at hy
      · rename_i hd
        rw [mem_singleton.mp hy, ← hd]
        exact .inr he
      · cases hy
  · rintro (he | he)
    · exact ⟨_, he, .inl (by simp)⟩
    · exact ⟨_, he, .inr (by simp)⟩

theorem addedPeers_of_not_mem {l : List (AnchorId × AnchorId)} {x : AnchorId} (hl : ∀ e ∈ l, e.1 ≠ x ∧ e.2 ≠ x) :
    addedPeers l x = [] := by
  refine eq_nil_iff_forall_not_mem.mpr fun y hy => ?_
  rcases mem_addedPeers.mp hy with he | he
  · exact (hl _ he).1 rfl
  · exact (hl _ he).2 rfl

theorem addedPeers_append (l l' : List (AnchorId × AnchorId)) (x : AnchorId) :
    addedPeers (l ++ l') x = addedPeers l x ++ addedPeers l' x := flatMap_append

/-- Links append to the peers of every anchor. -/
theorem peers_linkAll_eq (l : List (AnchorId × AnchorId)) (x : AnchorId) : ∀ h : Heap,
    (linkAll l h).peers x = h.peers x ++ addedPeers l x := by
  induction l with
  | nil => exact fun h => (append_nil _).symm
  | cons e l ih =>
    intro h
    have hlinked : (Anchor.linked h e.1 e.2).peers x =
        h.peers x ++ ((if e.1 = x then [e.2] else []) ++ if e.2 = x then [e.1] else []) := by
      simp only [Anchor.linked, Heap.setPeers_peers]
      by_cases h₁ : x = e.1
      · by_cases h₂ : x = e.2
        · simp [← h₁, ← h₂]
        · simp [← h₁, h₂, Ne.symm h₂]
      · by_cases h₂ : x = e.2
        · simp [h₁, Ne.symm h₁, ← h₂]
        · simp [h₁, Ne.symm h₁, h₂, Ne.symm h₂]
    rw [LinkListsAux.linkAll, ih, hlinked, append_assoc]
    rfl

/-- A loop that makes one link in each round makes all of them. -/
theorem eachOk_linkAll {α : Type} {f : α → Cmd Heap Bool} {e : α → AnchorId × AnchorId} : ∀ {l : List α} {h : Heap},
    (∀ before a after, l = before ++ a :: after → f a (linkAll (before.map e) h) =
      some (true, Anchor.linked (linkAll (before.map e) h) (e a).1 (e a).2)) →
    Cmd.eachOk f l h = some (true, linkAll (l.map e) h) := by
  intro l
  induction l with
  | nil => exact fun _ => rfl
  | cons a l ih =>
    intro h hf
    have hfirst : f a h = some (true, Anchor.linked h (e a).1 (e a).2) := hf [] a l rfl
    rw [Cmd.eachOk, bind_of_eq hfirst]
    exact ih fun before b after hl => hf (a :: before) b after (by rw [hl]; rfl)

/-- A loop that asks for one link in each round: it fails where an item has no anchors, and where an item that wants its second
anchor free finds a link there. -/
structure AsksLinks {α : Type} (t : Heap) (f : α → Cmd Heap Bool) (ends : α → Option (AnchorId × AnchorId)) (single : α → Prop)
    (l : List α) : Prop where
  none : ∀ s, t.SameButPeers s → ∀ a ∈ l, ends a = none → f a s = some (false, s)
  made : ∀ s, t.SameButPeers s → ∀ a ∈ l, ∀ e, ends a = some e → (single a → s.peers e.2 = []) →
    f a s = some (true, Anchor.linked s e.1 e.2)
  refused : ∀ s, t.SameButPeers s → ∀ a ∈ l, ∀ e, ends a = some e → single a → s.peers e.2 ≠ [] → f a s = some (false, s)
  kinds : ∀ a ∈ l, ∀ e, ends a = some e → (t.kind e.1).isIn = false ∧ (t.kind e.2).isIn = true

/-- What is left of the loop after a link. -/
theorem AsksLinks.tail {α : Type} {f : α → Cmd Heap Bool} {ends : α → Option (AnchorId × AnchorId)} {single : α → Prop} {x : α}
    {l : List α} (hl : AsksLinks t f ends single (x :: l)) (e : AnchorId × AnchorId) :
    AsksLinks (Anchor.linked t e.1 e.2) f ends single l := by
  have hsame := SameButPeers.linked t e.1 e.2
  have hmem : ∀ a ∈ l, a ∈ x :: l := fun a ha => mem_cons_of_mem x ha
  refine ⟨fun s hs a ha => hl.none s (SameButPeers.trans hsame hs) a (hmem a ha), fun s hs a ha => hl.made s
    (SameButPeers.trans hsame hs) a (hmem a ha),
    fun s hs a ha => hl.refused s (SameButPeers.trans hsame hs) a (hmem a ha), fun a ha d hd => ?_⟩
  rw [hsame.kind, hsame.kind]
  exact hl.kinds a (hmem a ha) d hd

/-- Such a loop succeeds when each item has its anchors, and each that wants its second anchor free is the first to link it. -/
theorem eachOk_asks_iff {α : Type} {f : α → Cmd Heap Bool} {ends : α → Option (AnchorId × AnchorId)} {single : α → Prop}
    {l : List α} : ∀ {t : Heap}, AsksLinks t f ends single l → (Cmd.eachOk f l t = some (true, u) ↔ (∀ a ∈ l, (ends a).isSome) ∧
      (∀ a ∈ l, single a → ∀ e, ends a = some e → t.peers e.2 = []) ∧
      (l.Pairwise fun a b => single b → ∀ e d, ends a = some e → ends b = some d → d.2 ≠ e.2) ∧
      u = linkAll (l.filterMap ends) t) := by
  induction l with
  | nil =>
    intro t _
    simp only [Cmd.eachOk, pure_apply, Option.some.injEq, Prod.mk.injEq, true_and, filterMap_nil, LinkListsAux.linkAll]
    exact ⟨fun htu => ⟨by simp, by simp, .nil, htu.symm⟩, fun hall => hall.2.2.2.symm⟩
  | cons x l ih =>
    intro t hl
    cases he : ends x with
    | none =>
      have hround := hl.none t (SameButPeers.refl t) x mem_cons_self he
      rw [Cmd.eachOk, bind_of_eq hround]
      refine iff_of_false (by simp) fun hall => ?_
      have hx := hall.1 x mem_cons_self
      rw [he] at hx
      exact Bool.false_ne_true hx
    | some e =>
      by_cases hfree : single x → t.peers e.2 = []
      · have hround := hl.made t (SameButPeers.refl t) x mem_cons_self e he hfree
        have hiff := ih (hl.tail e)
        rw [Cmd.eachOk, bind_of_eq hround]
        refine hiff.trans ?_
        have hpeers : ∀ a ∈ l, ∀ d, ends a = some d →
          ((Anchor.linked t e.1 e.2).peers d.2 = [] ↔ t.peers d.2 = [] ∧ d.2 ≠ e.2) := by
          intro a ha d hd
          have hout : d.2 ≠ e.1 := by
            intro heq
            have hin := (hl.kinds a (mem_cons_of_mem x ha) d hd).2
            rw [heq, (hl.kinds x mem_cons_self e he).1] at hin
            cases hin
          by_cases hd2 : d.2 = e.2
          · have hne : e.1 ≠ e.2 := fun h => hout (hd2.trans h.symm)
            rw [hd2, linked_peers_snd hne]
            simp
          · rw [linked_peers_of_ne hout hd2]
            simp [hd2]
        rw [filterMap_cons_some he, forall_mem_cons, forall_mem_cons, pairwise_cons, he]
        constructor
        · rintro ⟨hsome, hfrees, hpair, hu⟩
          refine ⟨⟨rfl, hsome⟩, ⟨fun hs d hd => Option.some.inj hd ▸ hfree hs, fun a ha hs d hd =>
            ((hpeers a ha d hd).mp (hfrees a ha hs d hd)).1⟩, ⟨fun a ha hs d d' hd hd' => ?_, hpair⟩, hu⟩
          exact Option.some.inj hd ▸ ((hpeers a ha d' hd').mp (hfrees a ha hs d' hd')).2
        · rintro ⟨⟨-, hsome⟩, ⟨-, hfrees⟩, ⟨hfirst, hpair⟩, hu⟩
          exact ⟨hsome, fun a ha hs d hd => (hpeers a ha d hd).mpr ⟨hfrees a ha hs d hd, hfirst a ha hs e d rfl hd⟩, hpair, hu⟩
      · rw [Classical.not_imp] at hfree
        have hround := hl.refused t (SameButPeers.refl t) x mem_cons_self e he hfree.1 hfree.2
        rw [Cmd.eachOk, bind_of_eq hround]
        refine iff_of_false (by simp) fun hall => hfree.2 (hall.2.1 x mem_cons_self hfree.1 e he)

/-! ## Requests -/

/-- The anchors a request is about, none where it finds no source or its indices are out of range. -/
def ends (nodeMap : OrderedMap String NodeId) (h : Heap) (item : NodeNameNodeReq) : Option (AnchorId × AnchorId) :=
  (nodeMap.find item.srcNodeName).bind fun src =>
    if 0 ≤ item.srcOutIndex then
      (Node.getOutDataAnchor h src item.srcOutIndex).bind fun a =>
        (Node.getInDataAnchor h item.dstNode item.dstInIndex).map fun b => (a, b)
    else some ((h.node src).outControlAnchor, (h.node item.dstNode).inControlAnchor)

theorem ends_congr (hn : t.node = h.node) : ends nodeMap t item = ends nodeMap h item := by
  simp only [ends, Node.getOutDataAnchor, Node.getInDataAnchor, hn]

/-- What meets a request: it fails where there are no anchors, and makes the link unless it is one of a data input that has one. -/
structure Meets (nodeMap : OrderedMap String NodeId) (f : NodeNameNodeReq → Cmd Heap Bool) : Prop where
  none : ∀ h item, ends nodeMap h item = none → f item h = some (false, h)
  made : ∀ h item e, ends nodeMap h item = some e → (0 ≤ item.srcOutIndex → h.peers e.2 = []) →
    f item h = some (true, Anchor.linked h e.1 e.2)
  node : ∀ h item ok t, f item h = some (ok, t) → t.node = h.node

/-- A loop over requests that succeeds has found the anchors of each. -/
theorem ends_of_eachOk (hf : Meets nodeMap f) (hr : Cmd.eachOk f l h = some (true, t)) :
    ∀ item ∈ l, (ends nodeMap h item).isSome := by
  have hall := eachOk_of_true (f := f) (l := l) (s := h) (t := t)
    (I := fun (met : List NodeNameNodeReq) s => s.node = h.node ∧ ∀ item ∈ met, (ends nodeMap h item).isSome) ?_
    ⟨rfl, fun _ (hi : _ ∈ []) => absurd hi not_mem_nil⟩ hr
  · exact hall.2
  intro met item s v _ ⟨hs, hmet⟩ hv
  refine ⟨(hf.node s item true v hv).trans hs, fun x hx => ?_⟩
  rcases mem_append.mp hx with hx | hx
  · exact hmet x hx
  · obtain rfl := mem_singleton.mp hx
    cases he : ends nodeMap h x with
    | some e => rfl
    | none =>
      rw [hf.none s x ((ends_congr hs).trans he)] at hv
      cases hv

/-- Requests that find their anchors, outputs and inputs, of which no data input has a link or is asked for before. -/
structure Ready (nodeMap : OrderedMap String NodeId) (h : Heap) (l : List NodeNameNodeReq) : Prop where
  found : ∀ item ∈ l, (ends nodeMap h item).isSome
  kinds : ∀ item ∈ l, ∀ e, ends nodeMap h item = some e → (h.kind e.1).isIn = false ∧ (h.kind e.2).isIn = true
  apart : l.Pairwise fun item item' => ∀ e e', ends nodeMap h item = some e → ends nodeMap h item' = some e' →
    0 ≤ item'.srcOutIndex → e'.2 ≠ e.2
  free : ∀ item ∈ l, ∀ e, ends nodeMap h item = some e → 0 ≤ item.srcOutIndex → h.peers e.2 = []

/-- Requests left when the first was met are ready. -/
theorem Ready.tail (hr : Ready nodeMap h (item :: l)) (he : ends nodeMap h item = some e) :
    Ready nodeMap (Anchor.linked h e.1 e.2) l := by
  have hsame := SameButPeers.linked h e.1 e.2
  have hends : ∀ x, ends nodeMap (Anchor.linked h e.1 e.2) x = ends nodeMap h x := fun x => ends_congr hsame.node
  have hmem : ∀ x ∈ l, x ∈ item :: l := fun x hx => mem_cons_of_mem item hx
  obtain ⟨hfirst, hrest⟩ := pairwise_cons.mp hr.apart
  refine ⟨fun x hx => ?_, fun x hx d hd => ?_, ?_, fun x hx d hd hidx => ?_⟩
  · rw [hends]
    exact hr.found x (hmem x hx)
  · rw [hends] at hd
    rw [hsame.kind, hsame.kind]
    exact hr.kinds x (hmem x hx) d hd
  · simpa only [hends] using hrest
  · rw [hends] at hd
    have hout : d.2 ≠ e.1 := by
      intro heq
      have hin := (hr.kinds x (hmem x hx) d hd).2
      rw [heq, (hr.kinds item mem_cons_self e he).1] at hin
      cases hin
    rw [linked_peers_of_ne hout (hfirst x hx e d he hd hidx)]
    exact hr.free x (hmem x hx) d hd hidx

/-- Requests that are ready are met one after the other. -/
theorem eachOk_of_ready (hf : Meets nodeMap f) : ∀ {l : List NodeNameNodeReq} {h : Heap}, Ready nodeMap h l →
    Cmd.eachOk f l h = some (true, linkAll (l.filterMap (ends nodeMap h)) h) := by
  intro l
  induction l with
  | nil => exact fun _ => rfl
  | cons item l ih =>
    intro h hr
    obtain ⟨e, he⟩ := Option.isSome_iff_exists.mp (hr.found item mem_cons_self)
    have hrun := hf.made h item e he (hr.free item mem_cons_self e he)
    have hends : ends nodeMap (Anchor.linked h e.1 e.2) = ends nodeMap h :=
      funext fun _ => ends_congr (SameButPeers.linked h e.1 e.2).node
    rw [Cmd.eachOk, bind_of_eq hrun, filterMap_cons_some he]
    show Cmd.eachOk f l (Anchor.linked h e.1 e.2) = _
    rw [ih (hr.tail he), hends]
    rfl

end LinkListsAux

end Metadef
