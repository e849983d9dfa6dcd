import Metadef.Rewiring
import Metadef.Lemmas.LinkLists
import Metadef.Theorems.LinkSymmetry

/-!
# Copying the input edges of a node

`CopyInDataEdges` links the inputs of one node to the sources of those of another, one after the other. It goes through exactly
when no input has a source or all have one: the text of the failure at a gap reads the source that is not there.
-/

namespace Metadef

open List

open GraphUtils

/-- The inputs of a node are fed by the sources of those of another, and nothing else changed. -/
structure Heap.InputsCopied (h h' : Heap) (src dst : NodeId) : Prop where
  same : h.SameButPeers h'
  fed : ∀ (i : Nat) s d, (h.node src).inDataAnchors[i]? = some s → (h.node dst).inDataAnchors[i]? = some d →
    h'.peers d = (InDataAnchor.getPeerOutAnchor h s).toList
  source : ∀ s ∈ (h.node src).inDataAnchors, h'.peers s = h.peers s
  kept : ∀ a, a ∉ (h.node dst).inDataAnchors.take (h.node src).inDataAnchors.length →
    ∃ l, h'.peers a = h.peers a ++ l ∧ ∀ b ∈ l, h.kind a = .outData ∧ b ∈ (h.node dst).inDataAnchors

/-- Copying the input edges of a node returns with success, and they are copied. -/
def Heap.CopiesInputs (h : Heap) (src dst : NodeId) : Prop :=
  ∃ h', copyInDataEdges (some src) (some dst) h = some (true, h') ∧ h.InputsCopied h' src dst

namespace CopiedInputsAux

open Cmd LinkListsAux

variable {h t t' : Heap} {src dst : NodeId} {s d p : AnchorId}

/-- The source of an input and its first peer. -/
theorem getPeerOutAnchor_eq_some : InDataAnchor.getPeerOutAnchor h s = some p ↔ (h.peers s).head? = some p ∧
    h.kind p = .outData := by
  unfold InDataAnchor.getPeerOutAnchor
  cases h.peers s with
  | nil => simp
  | cons b l =>
    simp only [head?_cons, Option.some.injEq]
    constructor
    · intro he
      split at he
      · rename_i hk
        obtain rfl := Option.some.inj he
        exact ⟨rfl, hk⟩
      · cases he
    · rintro ⟨rfl, hk⟩
      exact if_pos hk

/-- A round that succeeds found a source and a free input, and linked them. -/
theorem copyInDataEdge_true (hr : copyInDataEdge dst s t = some (true, t')) :
    ∃ p d, InDataAnchor.getPeerOutAnchor t s = some p ∧ Node.getInDataAnchor t dst (t.anchor s).idx = some d ∧
      t' = Anchor.linked t p d := by
  simp only [copyInDataEdge, get_bind_apply] at hr
  obtain ⟨ok, m, hm, hr⟩ := bind_eq_some.mp hr
  cases ok with
  | false =>
    rw [if_neg (by simp)] at hr
    split at hr
    · cases hr
    · simp at hr
  | true =>
    obtain rfl : m = t' := by simpa using hr
    cases hp : InDataAnchor.getPeerOutAnchor t s with
    | none => simp [hp, addDataEdge, addEdgeBy] at hm
    | some p =>
      rw [hp] at hm
      rcases LinkAux.link_cases hm with ⟨hfalse, -⟩ | ⟨-, d, hd, -, rfl⟩
      · cases hfalse
      · exact ⟨p, d, rfl, hd, rfl⟩

/-- A round with a source and a free input links them. -/
theorem copyInDataEdge_links (hp : InDataAnchor.getPeerOutAnchor t s = some p)
    (hd : Node.getInDataAnchor t dst (t.anchor s).idx = some d) (hfree : t.peers d = []) :
    copyInDataEdge dst s t = some (true, Anchor.linked t p d) := by
  simp only [copyInDataEdge, get_bind_apply, hp, hd]
  have hlink : addDataEdge (some p) (some d) t = some (true, Anchor.linked t p d) := by
    simp [addDataEdge, addEdgeBy, OutDataAnchor.linkTo, Anchor.link, hfree]
  rw [bind_of_eq hlink]
  rfl

/-! ## All inputs have sources -/

/-- The link a round makes: from the source of an input to the input of the other node at its index. -/
def copyOf (h : Heap) (dst : NodeId) (s : AnchorId) : AnchorId × AnchorId :=
  ((InDataAnchor.getPeerOutAnchor h s).getD s, (Node.getInDataAnchor h dst (h.anchor s).idx).getD s)

section
variable (hs : h.Sound) (hsrc : src < h.nodeCount) (hdst : dst < h.nodeCount)
  (hlen : (h.node src).inDataAnchors.length ≤ (h.node dst).inDataAnchors.length)
include hs hsrc

/-- The inputs of a node are numbered by their positions. -/
theorem idx_of_getElem? {i : Nat} (hi : (h.node src).inDataAnchors[i]? = some s) : (h.anchor s).idx = i :=
  hs.laid.idx src hsrc .inData rfl i s hi

include hlen

/-- Each input has one of the other node at its index. -/
theorem exists_dest {i : Nat} (hi : (h.node src).inDataAnchors[i]? = some s) :
    ∃ d, (h.node dst).inDataAnchors[i]? = some d ∧ Node.getInDataAnchor h dst (h.anchor s).idx = some d := by
  obtain ⟨hlt, -⟩ := List.getElem?_eq_some_iff.mp hi
  refine ⟨_, getElem?_eq_getElem (Nat.lt_of_lt_of_le hlt hlen), ?_⟩
  rw [idx_of_getElem? hs hsrc hi, Node.getInDataAnchor, if_neg (by omega), Int.toNat_natCast]
  exact getElem?_eq_getElem _

end

section
variable (hs : h.Sound) (hsrc : src < h.nodeCount) (hdst : dst < h.nodeCount)
  (hlen : (h.node src).inDataAnchors.length ≤ (h.node dst).inDataAnchors.length)
  (hall : ∀ s ∈ (h.node src).inDataAnchors, (InDataAnchor.getPeerOutAnchor h s).isSome)
include hs hsrc hlen hall

/-- The link of an input leaves by its source and ends at the input at its index. -/
theorem copyOf_eq {i : Nat} (hi : (h.node src).inDataAnchors[i]? = some s) :
    ∃ p d, InDataAnchor.getPeerOutAnchor h s = some p ∧ (h.node dst).inDataAnchors[i]? = some d ∧
      Node.getInDataAnchor h dst (h.anchor s).idx = some d ∧ copyOf h dst s = (p, d) := by
  obtain ⟨p, hp⟩ := Option.isSome_iff_exists.mp (hall s (mem_of_getElem? hi))
  obtain ⟨d, hd, hget⟩ := exists_dest hs hsrc hlen hi
  exact ⟨p, d, hp, hd, hget, by rw [copyOf, hp, hget]; rfl⟩

include hdst

/-- Links of inputs leave by outputs, and end at inputs of the other node. -/
theorem kinds_copyOf {l : List AnchorId} (hl : l ⊆ (h.node src).inDataAnchors) {e : AnchorId × AnchorId}
    (he : e ∈ l.map (copyOf h dst)) :
    h.kind e.1 = .outData ∧ e.2 ∈ (h.node dst).inDataAnchors ∧ h.kind e.2 = .inData := by
  obtain ⟨s, hmem, rfl⟩ := List.mem_map.mp he
  obtain ⟨i, hi⟩ := getElem?_of_mem (hl hmem)
  obtain ⟨p, d, hp, hd, -, heq⟩ := copyOf_eq hs hsrc hlen hall hi
  rw [heq]
  have hmem := mem_of_getElem? hd
  exact ⟨(getPeerOutAnchor_eq_some.mp hp).2, hmem, hs.laid.kind dst hdst .inData d hmem⟩

/-- The links of the inputs before one do not end at the input it is copied to. -/
theorem apart {before after : List AnchorId} (hl : (h.node src).inDataAnchors = before ++ after) {d : AnchorId} {i : Nat}
    (hi : before.length ≤ i) (hd : (h.node dst).inDataAnchors[i]? = some d) : addedPeers (before.map (copyOf h dst)) d = [] := by
  refine addedPeers_of_not_mem fun e he => ⟨fun h₁ => ?_, fun h₂ => ?_⟩
  · have hk := (kinds_copyOf hs hsrc hdst hlen hall (hl ▸ subset_append_left _ _) he).1
    rw [h₁, hs.laid.kind dst hdst .inData d (mem_of_getElem? hd)] at hk
    cases hk
  · obtain ⟨s, hmem, rfl⟩ := List.mem_map.mp he
    obtain ⟨j, hj⟩ := getElem?_of_mem hmem
    have hlt := (List.getElem?_eq_some_iff.mp hj).1
    obtain ⟨p, d', -, hd', -, heq⟩ := copyOf_eq hs hsrc hlen hall (i := j) (s := s)
      (by rw [hl, getElem?_append_left hlt]; exact hj)
    rw [heq] at h₂
    obtain rfl : d' = d := h₂
    have := (hs.laid.idx dst hdst .inData rfl i d' hd).symm.trans (hs.laid.idx dst hdst .inData rfl j d' hd')
    omega

variable (hfree : ∀ d ∈ (h.node dst).inDataAnchors, h.peers d = [])
include hfree

/-- Where all inputs have sources and those of the other node no links, each input is copied. -/
theorem eachOk_copies : Cmd.eachOk (copyInDataEdge dst) (h.node src).inDataAnchors h =
    some (true, linkAll ((h.node src).inDataAnchors.map (copyOf h dst)) h) := by
  refine eachOk_linkAll fun before s after hl => ?_
  have hi : (h.node src).inDataAnchors[before.length]? = some s := by simp [hl]
  obtain ⟨p, d, hp, hd, hget, heq⟩ := copyOf_eq hs hsrc hlen hall hi
  obtain ⟨hhead, hk⟩ := getPeerOutAnchor_eq_some.mp hp
  have hsame := SameButPeers.linkAll (before.map (copyOf h dst)) h
  rw [heq]
  refine copyInDataEdge_links (getPeerOutAnchor_eq_some.mpr ⟨?_, (hsame.kind p).trans hk⟩) ?_ ?_
  · rw [peers_linkAll_eq, head?_append, hhead]
    rfl
  · rw [hsame.idx, Node.getInDataAnchor, hsame.node]
    exact hget
  · rw [peers_linkAll_eq, hfree d (mem_of_getElem? hd), apart hs hsrc hdst hlen hall hl (Nat.le_refl _) hd]
    rfl

/-- The links of the inputs copy them. -/
theorem inputsCopied_linkAll : h.InputsCopied (linkAll ((h.node src).inDataAnchors.map (copyOf h dst)) h) src dst := by
  have hkinds : ∀ e ∈ (h.node src).inDataAnchors.map (copyOf h dst),
      h.kind e.1 = .outData ∧ e.2 ∈ (h.node dst).inDataAnchors ∧ h.kind e.2 = .inData :=
    fun e he => kinds_copyOf hs hsrc hdst hlen hall (List.Subset.refl _) he
  refine ⟨SameButPeers.linkAll _ h, fun i s d hi hd => ?_, fun s hmem => ?_, fun a ha =>
    ⟨_, peers_linkAll_eq _ a h, fun b hb => ?_⟩⟩
  · obtain ⟨p, d', hp, hd', -, heq⟩ := copyOf_eq hs hsrc hlen hall hi
    obtain rfl : d' = d := Option.some.inj (hd'.symm.trans hd)
    have hpd : p ≠ d' := by
      rintro rfl
      exact absurd ((getPeerOutAnchor_eq_some.mp hp).2.symm.trans (hs.laid.kind dst hdst .inData p (mem_of_getElem? hd)))
        (by decide)
    obtain ⟨hlt, hat⟩ := List.getElem?_eq_some_iff.mp hi
    have hsplit := (take_append_drop i (h.node src).inDataAnchors).symm
    rw [drop_eq_getElem_cons hlt, hat] at hsplit
    have hbefore := apart hs hsrc hdst hlen hall hsplit (length_take_le _ _) hd
    have hafter : addedPeers (((h.node src).inDataAnchors.drop (i + 1)).map (copyOf h dst)) d' = [] := by
      refine addedPeers_of_not_mem fun e he => ⟨fun h₁ => ?_, fun h₂ => ?_⟩
      · have hk := (kinds_copyOf hs hsrc hdst hlen hall (drop_subset _ _) he).1
        rw [h₁, hs.laid.kind dst hdst .inData d' (mem_of_getElem? hd)] at hk
        cases hk
      · obtain ⟨x, hx, rfl⟩ := List.mem_map.mp he
        obtain ⟨j, hj⟩ := getElem?_of_mem hx
        rw [getElem?_drop] at hj
        obtain ⟨_, c, -, hc, -, hxc⟩ := copyOf_eq hs hsrc hlen hall hj
        rw [hxc] at h₂
        obtain rfl : c = d' := h₂
        have := (hs.laid.idx dst hdst .inData rfl i c hd).symm.trans (hs.laid.idx dst hdst .inData rfl _ c hc)
        omega
    rw [peers_linkAll_eq, hfree d' (mem_of_getElem? hd), hp]
    nth_rewrite 1 [hsplit]
    rw [map_append, map_cons, addedPeers_append, hbefore, heq]
    simp only [addedPeers, flatMap_cons, hpd, if_false, if_true] at hafter ⊢
    rw [hafter]
    rfl
  · rw [peers_linkAll_eq, addedPeers_of_not_mem fun e he => ?_, append_nil]
    obtain ⟨hk, hdest, -⟩ := hkinds e he
    constructor
    · rintro rfl
      exact absurd (hk.symm.trans (hs.laid.kind src hsrc .inData _ hmem)) (by decide)
    · rintro rfl
      have := hall _ hmem
      rw [InDataAnchor.getPeerOutAnchor, hfree _ hdest] at this
      cases this
  · rcases mem_addedPeers.mp hb with he | he
    · exact ⟨(hkinds _ he).1, (hkinds _ he).2.1⟩
    · refine absurd ?_ ha
      obtain ⟨s, hmem, heq⟩ := List.mem_map.mp he
      obtain ⟨i, hi⟩ := getElem?_of_mem hmem
      obtain ⟨p, d, -, hd, -, hsd⟩ := copyOf_eq hs hsrc hlen hall hi
      obtain rfl : d = a := congrArg Prod.snd (hsd.symm.trans heq)
      refine mem_of_getElem? (i := i) ?_
      rw [getElem?_take, if_pos (List.getElem?_eq_some_iff.mp hi).1]
      exact hd

end

/-! ## An input has none -/

/-- A loop that succeeds found a source for every input. -/
theorem isSome_of_eachOk (hs : h.Sound) (hsrc : src < h.nodeCount) (hdst : dst < h.nodeCount) (hne : src ≠ dst)
    (hr : Cmd.eachOk (copyInDataEdge dst) (h.node src).inDataAnchors h = some (true, t)) :
    ∀ s ∈ (h.node src).inDataAnchors, (InDataAnchor.getPeerOutAnchor h s).isSome := by
  -- the links made leave the inputs as they were
  refine (eachOk_of_true (I := fun (met : List AnchorId) t => h.SameButPeers t ∧
    (∀ s ∈ (h.node src).inDataAnchors, t.peers s = h.peers s) ∧ ∀ s ∈ met, (InDataAnchor.getPeerOutAnchor h s).isSome)
    (fun met s t t' hmem ⟨hsame, hkept, hmet⟩ hr => ?_)
      ⟨SameButPeers.refl h, fun _ _ => rfl, fun s (hm : s ∈ []) => absurd hm not_mem_nil⟩
    hr).2.2
  obtain ⟨p, d, hp, hd, rfl⟩ := copyInDataEdge_true hr
  have hp' : InDataAnchor.getPeerOutAnchor h s = some p := by
    rw [getPeerOutAnchor_eq_some] at hp ⊢
    rwa [hkept s hmem, hsame.kind] at hp
  have hdmem : d ∈ (h.node dst).inDataAnchors := by
    unfold Node.getInDataAnchor at hd
    split at hd
    · cases hd
    · rw [hsame.node] at hd
      exact mem_of_getElem? hd
  refine ⟨SameButPeers.trans hsame (SameButPeers.linked t p d), fun x hx => ?_, fun x hx => ?_⟩
  · rw [linked_peers_of_ne ?_ ?_, hkept x hx]
    · rintro rfl
      exact absurd ((getPeerOutAnchor_eq_some.mp hp').2.symm.trans (hs.laid.kind src hsrc .inData _ hx)) (by decide)
    · rintro rfl
      exact hne ((hs.laid.owner src hsrc .inData _ hx).symm.trans (hs.laid.owner dst hdst .inData _ hdmem))
  · rcases mem_append.mp hx with hx | hx
    · exact hmet x hx
    · rw [mem_singleton.mp hx, hp']
      rfl

end CopiedInputsAux

open CopiedInputsAux

/-- To a node whose inputs have no links, the input edges of another are copied exactly when no input has a source or all
have one. -/
theorem copiesInputs_iff (h : Heap) (src dst : NodeId) (hs : h.Sound) (hsrc : src < h.nodeCount) (hdst : dst < h.nodeCount)
    (hlen : (h.node src).inDataAnchors.length ≤ (h.node dst).inDataAnchors.length)
    (hfree : ∀ d ∈ (h.node dst).inDataAnchors, h.peers d = []) :
    h.CopiesInputs src dst ↔ (∀ s ∈ (h.node src).inDataAnchors, InDataAnchor.getPeerOutAnchor h s = none) ∨
      ∀ s ∈ (h.node src).inDataAnchors, (InDataAnchor.getPeerOutAnchor h s).isSome := by
  have hrun : ∀ (_ : (Node.getInDataNodes h src).isEmpty = false), copyInDataEdges (some src) (some dst) h =
      Cmd.eachOk (copyInDataEdge dst) (h.node src).inDataAnchors h := by
    intro hsome
    simp only [copyInDataEdges, Cmd.get_bind_apply, hsome, Bool.false_eq_true, if_false]
  have hempty : (Node.getInDataNodes h src).isEmpty = true ↔
      ∀ s ∈ (h.node src).inDataAnchors, InDataAnchor.getPeerOutAnchor h s = none := by
    rw [Node.getInDataNodes, List.isEmpty_iff, map_eq_nil_iff, filterMap_eq_nil_iff]
  rw [← hempty]
  by_cases hnone : (Node.getInDataNodes h src).isEmpty = true
  · refine ⟨fun _ => .inl hnone, fun _ => ⟨h, ?_, LinkListsAux.SameButPeers.refl h, fun i s d hi hd => ?_, fun _ _ => rfl,
      fun a _ => ?_⟩⟩
    · simp only [copyInDataEdges, Cmd.get_bind_apply, hnone, if_true, Cmd.pure_apply]
    · rw [hempty.mp hnone s (mem_of_getElem? hi), hfree d (mem_of_getElem? hd)]
      rfl
    · exact ⟨[], (append_nil _).symm, fun b hb => absurd hb not_mem_nil⟩
  · have hrun' := hrun (by simpa using hnone)
    constructor
    · rintro ⟨h', hr, -⟩
      refine .inr (isSome_of_eachOk hs hsrc hdst ?_ (hrun' ▸ hr))
      -- an input with a source is none of the other node's
      rintro rfl
      refine hnone (hempty.mpr fun s hmem => ?_)
      rw [InDataAnchor.getPeerOutAnchor, hfree s hmem]
    · rintro (h' | hall)
      · exact absurd h' hnone
      · exact ⟨_, hrun'.trans (eachOk_copies hs hsrc hdst hlen hall hfree), inputsCopied_linkAll hs hsrc hdst hlen hall hfree⟩

namespace CopiedInputsWitness

/-- A source, and two nodes with two inputs each. Control anchors come first. -/
def nodes : List LinkCall :=
  [.newOp { opDef := { name := "a", type := "Data" }, outputsDesc := [{}] }, .newNode 0,
    .newOp { opDef := { name := "n", type := "Add" }, inputsDesc := [{}, {}] }, .newNode 1,
    .newOp { opDef := { name := "m", type := "Add" }, inputsDesc := [{}, {}] }, .newNode 2]

/-- The source feeds both inputs of the second node. -/
def bothFed : Heap := (LinkCall.runAll (nodes ++ [.addDataEdge (some 2) (some 5), .addDataEdge (some 2) (some 6)])).getD .empty

/-- The source feeds the first input of the second node only. -/
def firstFed : Heap := (LinkCall.runAll (nodes ++ [.addDataEdge (some 2) (some 5)])).getD .empty

theorem sound_bothFed : bothFed.Sound :=
  sound_runAll (nodes ++ [.addDataEdge (some 2) (some 5), .addDataEdge (some 2) (some 6)]) bothFed (by decide +kernel) rfl

theorem sound_firstFed : firstFed.Sound := sound_runAll (nodes ++ [.addDataEdge (some 2) (some 5)]) firstFed (by decide +kernel) rfl

theorem copiesInputs_bothFed : bothFed.CopiesInputs 1 2 :=
  (copiesInputs_iff bothFed 1 2 sound_bothFed (by decide +kernel) (by decide +kernel) (by decide +kernel) (by decide +kernel)).mpr
    (.inr (by decide +kernel))

/-- An optional input without a source stops the copying for good. -/
theorem copiesInputs_false :
    ¬ ∀ (h : Heap) (src dst : NodeId), h.Sound → src < h.nodeCount → dst < h.nodeCount →
      (h.node src).inDataAnchors.length ≤ (h.node dst).inDataAnchors.length →
      (∀ d ∈ (h.node dst).inDataAnchors, h.peers d = []) → h.CopiesInputs src dst := by
  intro hall
  obtain ⟨h', hr, -⟩ := hall firstFed 1 2 sound_firstFed (by decide +kernel) (by decide +kernel) (by decide +kernel)
    (by decide +kernel)
  have hnone : copyInDataEdges (some 1) (some 2) firstFed = none := by rfl
  cases hnone.symm.trans hr

end CopiedInputsWitness

end Metadef
