import Metadef.Edges
import Metadef.Isolate
import Metadef.Lemmas.LinkSteps

/-!
# What isolating a node does to edges

While a node is isolated its links only go, and edges away from it only come: those of the nodes whose anchors are linked.
The steps are followed by what they leave of the heap the isolation started from.
-/

namespace Metadef

open List Adjacency

open Cmd Heap LinkAux

namespace IsolateAux

variable {h₀ h h' : Heap} {n : NodeId} {R : List (NodeId × NodeId)}

/-- The data output an input is fed by is its first peer. -/
theorem of_getPeerOutAnchor {a s : AnchorId} (hp : InDataAnchor.getPeerOutAnchor h a = some s) :
    s ∈ h.peers a ∧ h.kind s = .outData := by
  unfold InDataAnchor.getPeerOutAnchor at hp
  cases hl : h.peers a with
  | nil => simp [hl] at hp
  | cons b l =>
    simp only [hl] at hp
    split at hp
    · rename_i hk
      obtain rfl : b = s := Option.some.inj hp
      exact ⟨mem_cons_self, hk⟩
    · cases hp

/-- The links of a node have gone in part, and the edges away from it are the old ones and those of some pairs. -/
structure Isolating (h₀ : Heap) (n : NodeId) (R : List (NodeId × NodeId)) (h : Heap) : Prop where
  sound : h.Sound
  layout : SameLayout h₀ h
  directed : h.Directed
  away : ∀ u v, u ≠ n → v ≠ n → (h.AnyEdge u v ↔ h₀.AnyEdge u v ∨ (u, v) ∈ R)
  kept : ∀ a, h₀.owner a = n → h.peers a ⊆ h₀.peers a

theorem isolating_start (hs : h.Sound) (hd : h.Directed) (n : NodeId) : Isolating h n [] h :=
  ⟨hs, SameLayout.refl h, hd, fun u v _ _ => by simp, fun _ _ => List.Subset.refl _⟩

/-- Only the pairs count, not their list. -/
theorem Isolating.of_mem_iff {R' : List (NodeId × NodeId)} (hi : Isolating h₀ n R h) (hR : ∀ p, p ∈ R' ↔ p ∈ R) :
    Isolating h₀ n R' h :=
  ⟨hi.sound, hi.layout, hi.directed, fun u v hu hv => by rw [hi.away u v hu hv, hR], hi.kept⟩

/-! ## Links that go -/

/-- Unlinking an anchor of the node leaves the edges away from it. -/
theorem Isolating.unlink (hi : Isolating h₀ n R h) {x p : AnchorId} (hr : Anchor.unlink x (some p) h = some (true, h'))
    (hn : h₀.owner x = n ∨ h₀.owner p = n) : Isolating h₀ n R h' := by
  obtain ⟨hne, -, hlayout, hpeers⟩ := unlink_true hi.sound hr
  have hsub : ∀ a, h'.peers a ⊆ h.peers a := by
    intro a
    rw [hpeers]
    split
    · rename_i ha
      exact ha ▸ erase_subset
    · split
      · rename_i ha
        exact ha ▸ erase_subset
      · exact List.Subset.refl _
  have hback : ∀ a b, b ∈ h.peers a → h₀.owner a ≠ n → h₀.owner b ≠ n → b ∈ h'.peers a := by
    intro a b hb ha hbn
    rw [hpeers]
    split
    · rename_i hap
      have hbx : b ≠ x := by
        rintro rfl
        rcases hn with hn | hn
        · exact hbn hn
        · exact ha (hap ▸ hn)
      exact (mem_erase_of_ne hbx).mpr (hap ▸ hb)
    · split
      · rename_i hax
        have hbp : b ≠ p := by
          rintro rfl
          rcases hn with hn | hn
          · exact ha (hax ▸ hn)
          · exact hbn hn
        exact (mem_erase_of_ne hbp).mpr (hax ▸ hb)
      · exact hb
  have hl := hi.layout.trans hlayout
  refine ⟨keeps_unlink x (some p) h true h' hi.sound hr, hl, fun a b hb => ?_, fun u v hu hv => ?_, fun a ha => ?_⟩
  · rw [hlayout.kind, hlayout.kind]
    exact hi.directed a b (hsub a hb)
  · rw [← hi.away u v hu hv]
    constructor
    · rintro ⟨a, b, hb, hk, ha, hbv, -⟩
      exact ⟨a, b, hsub a hb, hlayout.kind a ▸ hk, hlayout.owner a ▸ ha, hlayout.owner b ▸ hbv, rfl⟩
    · rintro ⟨a, b, hb, hk, ha, hbv, -⟩
      refine ⟨a, b, hback a b hb ?_ ?_, (congrArg AnchorKind.isIn (hlayout.kind a)).trans hk, (hlayout.owner a).trans ha,
        (hlayout.owner b).trans hbv, rfl⟩
      · rw [← hi.layout.owner, ha]
        exact hu
      · rw [← hi.layout.owner, hbv]
        exact hv
  · exact fun b hb => hi.kept a ha (hsub a hb)

/-- No anchor of the node is linked to another of its anchors. -/
def NoLoop (h₀ : Heap) (n : NodeId) : Prop := ∀ a b, h₀.owner a = n → b ∈ h₀.peers a → h₀.owner b ≠ n

/-- Unlinking one anchor of the node leaves the lists of its others. -/
theorem keeps_unlink_own (hloop : NoLoop h₀ n) {o : AnchorId} (ho : h₀.owner o = n) (q : AnchorId → List AnchorId)
    (S : AnchorId → Prop) (hS : ∀ a, S a → h₀.owner a = n ∧ a ≠ o) (peer : Option AnchorId) :
    Keeps (fun h => Isolating h₀ n R h ∧ ∀ a, S a → h.peers a = q a) (Anchor.unlink o peer) := by
  rintro h ok h' ⟨hi, hq⟩ hr
  cases ok with
  | false =>
    rcases unlink_cases hr with ⟨-, rfl⟩ | ⟨hok, -⟩
    · exact ⟨hi, hq⟩
    · cases hok
  | true =>
    cases peer with
    | none =>
      rcases unlink_cases hr with ⟨-, rfl⟩ | ⟨-, p, -, -, hp, -⟩
      · exact ⟨hi, hq⟩
      · cases hp
    | some p =>
      obtain ⟨-, hmem, -, hpeers⟩ := unlink_true hi.sound hr
      refine ⟨hi.unlink hr (.inl ho), fun a ha => ?_⟩
      obtain ⟨han, hao⟩ := hS a ha
      have hap : a ≠ p := by
        rintro rfl
        exact hloop o a ho (hi.kept o ho hmem) han
      rw [hpeers, if_neg hap, if_neg hao]
      exact hq a ha

/-- So does unlinking all its peers. -/
theorem Isolating.unlinkAll (hi : Isolating h₀ n R h) (hloop : NoLoop h₀ n) {o : AnchorId} (ho : h₀.owner o = n)
    {S : AnchorId → Prop} (hS : ∀ a, S a → h₀.owner a = n ∧ a ≠ o) (hr : Anchor.unlinkAll o h = some ((), h')) :
    Isolating h₀ n R h' ∧ h'.peers o = [] ∧ ∀ a, S a → h'.peers a = h.peers a := by
  obtain ⟨hi', hS'⟩ := keeps_unlinkAll (keeps_unlink_own hloop ho h.peers S hS) h () h' ⟨hi, fun _ _ => rfl⟩ hr
  exact ⟨hi', unlinkAll_peers hi.sound hr, hS'⟩

/-- Unlinking anchors of the node one after the other leaves each without peers, and those that had none. -/
theorem Isolating.unlinkEach (hloop : NoLoop h₀ n) {l : List AnchorId} (hl : ∀ o ∈ l, h₀.owner o = n) :
    ∀ {h}, Isolating h₀ n R h → NodeUtils.unlinkEach l h = some ((), h') →
      Isolating h₀ n R h' ∧ ∀ a, h₀.owner a = n → a ∈ l ∨ h.peers a = [] → h'.peers a = [] := by
  induction l with
  | nil =>
    intro h hi hr
    obtain rfl : h = h' := by simpa [NodeUtils.unlinkEach] using hr
    refine ⟨hi, fun a _ ha => ?_⟩
    rcases ha with ha | ha
    · cases ha
    · exact ha
  | cons o l ih =>
    intro h hi hr
    obtain ⟨u, m, hm, hrest⟩ := bind_eq_some.mp hr
    have ho := hl o mem_cons_self
    obtain ⟨him, hempty, hsame⟩ := hi.unlinkAll (S := fun a => h₀.owner a = n ∧ a ≠ o) hloop ho (fun _ h => h) hm
    obtain ⟨hi', hpeers⟩ := ih (fun o ho => hl o (mem_cons_of_mem _ ho)) him hrest
    refine ⟨hi', fun a ha hor => ?_⟩
    by_cases hao : a = o
    · exact hpeers a ha (.inr (hao ▸ hempty))
    · rcases hor with hmem | hnone
      · exact hpeers a ha (.inl (mem_of_ne_of_mem hao hmem))
      · exact hpeers a ha (.inr ((hsame a ⟨ha, hao⟩).trans hnone))

/-! ## Links that come -/

/-- Linking an input and an output of other nodes adds the edge between their nodes. -/
theorem Isolating.linked (hi : Isolating h₀ n R h) {x y : AnchorId} (hx : h.Held x) (hy : h.Held y)
    (hkx : (h₀.kind x).isIn = true) (hky : (h₀.kind y).isIn = false) (hxn : h₀.owner x ≠ n) (hyn : h₀.owner y ≠ n)
    (hlink : h' = Anchor.linked h x y ∨ h' = Anchor.linked h y x) :
    Isolating h₀ n ((h₀.owner y, h₀.owner x) :: R) h' := by
  have hmem : ∀ a b, b ∈ h'.peers a ↔ b ∈ h.peers a ∨ (a = x ∧ b = y) ∨ (a = y ∧ b = x) := by
    intro a b
    rcases hlink with rfl | rfl
    · rw [linked_peers, mem_push, mem_push, or_assoc]
    · rw [linked_peers, mem_push, mem_push, or_assoc]
      exact or_congr_right or_comm
  have hsame : SameLayout h h' := by
    rcases hlink with rfl | rfl
    · exact sameLayout_linked h x y
    · exact sameLayout_linked h y x
  have hsound : h'.Sound := by
    rcases hlink with rfl | rfl
    · exact hi.sound.linked hx hy
    · exact hi.sound.linked hy hx
  have hl := hi.layout.trans hsame
  refine ⟨hsound, hl, fun a b hb => ?_, fun u v hu hv => ?_, fun a ha => ?_⟩
  · rcases (hmem a b).mp hb with hb | ⟨rfl, rfl⟩ | ⟨rfl, rfl⟩
    · rw [hsame.kind, hsame.kind]
      exact hi.directed a b hb
    · rw [hl.kind, hl.kind, hkx, hky]
      rfl
    · rw [hl.kind, hl.kind, hkx, hky]
      rfl
  · rw [mem_cons, or_left_comm, ← hi.away u v hu hv]
    constructor
    · rintro ⟨a, b, hb, hk, ha, hbv, -⟩
      rw [hl.owner] at ha hbv
      rw [hl.kind] at hk
      rcases (hmem a b).mp hb with hb | ⟨rfl, rfl⟩ | ⟨rfl, rfl⟩
      · exact .inr ⟨a, b, hb, (congrArg AnchorKind.isIn (hi.layout.kind a)).trans hk, (hi.layout.owner a).trans ha,
          (hi.layout.owner b).trans hbv, rfl⟩
      · rw [hkx] at hk
        cases hk
      · rw [ha, hbv]
        exact .inl rfl
    · rintro (he | ⟨a, b, hb, hk, ha, hbv, -⟩)
      · obtain ⟨rfl, rfl⟩ := Prod.mk.inj he
        exact ⟨y, x, (hmem y x).mpr (.inr (.inr ⟨rfl, rfl⟩)), (hl.kind y).symm ▸ hky, hl.owner y, hl.owner x, rfl⟩
      · exact ⟨a, b, (hmem a b).mpr (.inl hb), (congrArg AnchorKind.isIn (hsame.kind a)).trans hk, (hsame.owner a).trans ha,
          (hsame.owner b).trans hbv, rfl⟩
  · intro b hb
    rcases (hmem a b).mp hb with hb | ⟨rfl, -⟩ | ⟨rfl, -⟩
    · exact hi.kept a ha hb
    · exact absurd ha hxn
    · exact absurd ha hyn

end IsolateAux

end Metadef
