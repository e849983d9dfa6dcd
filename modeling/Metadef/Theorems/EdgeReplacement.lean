import Metadef.Lemmas.LinkSteps
import Metadef.Linking

/-!
# Replacing the destination of an edge

The old edge is removed before the new one is tried, so a new destination that cannot take the edge loses it. Replacing is
all or nothing exactly when there is no edge to remove, or the new destination is free once it is removed.
-/

namespace Metadef

open List Heap Cmd

namespace EdgeReplacement

open Adjacency GraphUtils

/-- The heaps have the same edges. -/
def SameEdges (h h' : Heap) : Prop := ∀ a b, (h'.peers a).count b = (h.peers a).count b

/-- One edge between the first two anchors became one from the first to the third. -/
def EdgeMoved (h h' : Heap) (src dst newDst : AnchorId) : Prop :=
  ∀ a b, (h'.peers a).count b + (one src dst a b + one dst src a b) =
    (h.peers a).count b + (one src newDst a b + one newDst src a b)

/-- Replacing a destination returns with the edge replaced, or fails with the edges it started from. -/
def AllOrNothing (h : Heap) (k : EdgeKind) (src dst newDst : Option AnchorId) : Prop :=
  ∃ ok h', replaceEdgeDst k src dst newDst h = some (ok, h') ∧
    ((ok = true ∧ ∃ s d n, src = some s ∧ dst = some d ∧ newDst = some n ∧ EdgeMoved h h' s d n) ∨
      (ok = false ∧ SameEdges h h'))

/-- Some peer of an anchor compares equal to another. -/
def Finds (h : Heap) (a b : AnchorId) : Prop := Anchor.isLinkedWith h a (some b) = true

/-- The first peer of an anchor that compares equal to another is that anchor. -/
def FindsItself (h : Heap) (a b : AnchorId) : Prop := (h.peers a).find? (Anchor.equal h b) = some b

/-- A destination can take an edge of the kind once an edge to the old destination is gone. -/
def Takes (h : Heap) : EdgeKind → (dst newDst : AnchorId) → Prop
  | .data, dst, newDst => h.peers newDst = [] ∨ (newDst = dst ∧ (h.peers dst).length = 1)
  | .control, _, _ => True

/-- Where there is an edge to remove, it is the one named, and the new destination takes the new one. -/
def Replaceable (h : Heap) (k : EdgeKind) (src dst newDst : Option AnchorId) : Prop :=
  ∀ s ∈ src, ∀ d ∈ dst, Finds h s d → Finds h d s →
    FindsItself h s d ∧ FindsItself h d s ∧ ∃ n, newDst = some n ∧ Takes h k d n

instance (h : Heap) (a b : AnchorId) : Decidable (Finds h a b) := inferInstanceAs (Decidable (_ = _))

instance (h : Heap) (a b : AnchorId) : Decidable (FindsItself h a b) := inferInstanceAs (Decidable (_ = _))

/-! ## The removal -/

section
variable {h : Heap} {s d : AnchorId}

/-- The first item that meets a condition stands at the first position of one. -/
theorem find?_of_findIdx? {α : Type} {q : α → Bool} {l : List α} {i : Nat} (hi : l.findIdx? q = some i) :
    ∃ x, l.find? q = some x ∧ l[i]? = some x := by
  induction l generalizing i with
  | nil => simp at hi
  | cons b l ih =>
    rw [findIdx?_cons] at hi
    cases hq : q b with
    | true =>
      obtain rfl : 0 = i := by simpa [hq] using hi
      exact ⟨b, find?_cons_of_pos hq, rfl⟩
    | false =>
      simp only [hq, Bool.false_eq_true, if_false, Option.map_eq_some_iff] at hi
      obtain ⟨j, hj, rfl⟩ := hi
      obtain ⟨x, hx, hxj⟩ := ih hj
      exact ⟨x, by rw [find?_cons_of_neg (by simp [hq]), hx], hxj⟩

/-- Without an equal of each anchor among the peers of the other nothing is unlinked. -/
theorem unlink_refuses (hf : ¬ (Finds h s d ∧ Finds h d s)) : Anchor.unlink s (some d) h = some (false, h) := by
  unfold Anchor.unlink
  simp only [get_bind_apply]
  cases hi : (h.peers s).findIdx? (Anchor.equal h d) with
  | none => rfl
  | some i =>
    cases hj : (h.peers d).findIdx? (Anchor.equal h s) with
    | none => rfl
    | some j =>
      obtain ⟨x, hx, hxi⟩ := find?_of_findIdx? hi
      obtain ⟨y, hy, hyj⟩ := find?_of_findIdx? hj
      exact absurd ⟨any_eq_true.mpr ⟨x, mem_of_find?_eq_some hx, find?_some hx⟩,
        any_eq_true.mpr ⟨y, mem_of_find?_eq_some hy, find?_some hy⟩⟩ hf

/-- With an equal of each anchor among the peers of the other, the first of them are unlinked. -/
theorem unlink_removes (hsd : s ≠ d) (hs : Finds h s d) (hd : Finds h d s) :
    ∃ x y h', (h.peers s).find? (Anchor.equal h d) = some x ∧ (h.peers d).find? (Anchor.equal h s) = some y ∧
      Anchor.unlink s (some d) h = some (true, h') ∧ (∀ a, a ≠ s → a ≠ d → h'.peers a = h.peers a) ∧
      (h'.peers d).length + 1 = (h.peers d).length ∧
      ∀ a b, (h'.peers a).count b + (one s x a b + one d y a b) = (h.peers a).count b := by
  obtain ⟨i, hi⟩ : ∃ i, (h.peers s).findIdx? (Anchor.equal h d) = some i :=
    Option.isSome_iff_exists.mp (by rw [findIdx?_isSome]; exact hs)
  obtain ⟨j, hj⟩ : ∃ j, (h.peers d).findIdx? (Anchor.equal h s) = some j :=
    Option.isSome_iff_exists.mp (by rw [findIdx?_isSome]; exact hd)
  obtain ⟨x, hx, hxi⟩ := find?_of_findIdx? hi
  obtain ⟨y, hy, hyj⟩ := find?_of_findIdx? hj
  obtain ⟨hjlt, -⟩ := List.getElem?_eq_some_iff.mp hyj
  refine ⟨x, y, (h.setPeers s ((h.peers s).eraseIdx i)).setPeers d ((h.peers d).eraseIdx j), hx, hy, ?_, ?_, ?_, ?_⟩
  · simp only [Anchor.unlink, get_bind_apply, hi, hj, hsd.symm, if_false, set_bind_apply, pure_apply]
  · intro a has had
    rw [setPeers_peers, if_neg had, setPeers_peers, if_neg has]
  · rw [setPeers_peers, if_pos rfl, length_eraseIdx_of_lt hjlt]
    omega
  · intro a b
    have hpeers : ((h.setPeers s ((h.peers s).eraseIdx i)).setPeers d ((h.peers d).eraseIdx j)).peers =
        cut (cut h.peers s i) d j := by
      funext a
      simp only [cut, setPeers_peers, Function.update_apply, hsd.symm, if_false]
    have hyj' : (cut h.peers s i d)[j]? = some y := by simpa [cut, Function.update_of_ne hsd.symm] using hyj
    have h1 := count_cut hyj' a b
    have h2 := count_cut hxi a b
    rw [hpeers]
    omega

/-! ## The two outcomes -/

/-- The anchors removed are those named exactly when the edge removed is the one named. -/
theorem ends_iff (hsd : s ≠ d) {x y : AnchorId} :
    (∀ a b, one s x a b + one d y a b = one s d a b + one d s a b) ↔ x = d ∧ y = s := by
  constructor
  · intro hall
    have h1 := hall s d
    have h2 := hall d s
    simp only [one, true_and, and_self, if_true, hsd, hsd.symm, false_and, if_false] at h1 h2
    constructor
    · by_contra hx
      simp [Ne.symm hx] at h1
    · by_contra hy
      simp [Ne.symm hy] at h2
  · rintro ⟨rfl, rfl⟩ a b
    rfl

/-- An overload of `AddEdge` links the ends when the destination takes edges of the kind, and fails otherwise. -/
theorem addEdge_eq (h : Heap) (k : EdgeKind) (s : AnchorId) (newDst : Option AnchorId) :
    (∃ n, newDst = some n ∧ (k = .data → h.peers n = []) ∧ k.addEdge (some s) newDst h = some (true, Anchor.linked h s n)) ∨
      ((∀ n, newDst = some n → k = .data ∧ h.peers n ≠ []) ∧ k.addEdge (some s) newDst h = some (false, h)) := by
  cases newDst with
  | none =>
    refine .inr ⟨fun n hn => (nomatch hn), ?_⟩
    cases k <;> rfl
  | some n =>
    cases k with
    | control => exact .inl ⟨n, rfl, fun hk => (nomatch hk), rfl⟩
    | data =>
      by_cases hn : h.peers n = []
      · refine .inl ⟨n, rfl, fun _ => hn, ?_⟩
        simp [EdgeKind.addEdge, addDataEdge, addEdgeBy, OutDataAnchor.linkTo, Anchor.link, hn]
      · refine .inr ⟨?_, ?_⟩
        · intro m hm
          exact ⟨rfl, Option.some.inj hm ▸ hn⟩
        · simp [EdgeKind.addEdge, addDataEdge, addEdgeBy, OutDataAnchor.linkTo, Anchor.link, hn]

/-- Where nothing is unlinked, replacing fails and leaves the heap. -/
theorem replaceEdgeDst_refuses {k : EdgeKind} {src dst newDst : Option AnchorId}
    (hr : removeEdge src dst h = some (false, h)) : AllOrNothing h k src dst newDst := by
  refine ⟨false, h, ?_, .inr ⟨rfl, fun _ _ => rfl⟩⟩
  unfold replaceEdgeDst
  rw [bind_of_eq hr]
  rfl

/-- Where an edge is unlinked, replacing is all or nothing exactly when the edge is the one named and the new destination
takes the new one. -/
theorem replaceEdgeDst_removed {k : EdgeKind} {newDst : Option AnchorId} (hsd : s ≠ d) (hnew : ∀ n ∈ newDst, n ≠ s)
    (hs : Finds h s d) (hd : Finds h d s) :
    AllOrNothing h k (some s) (some d) newDst ↔
      FindsItself h s d ∧ FindsItself h d s ∧ ∃ n, newDst = some n ∧ Takes h k d n := by
  obtain ⟨x, y, h₁, hx, hy, hr, hother, hlen, hcount⟩ := unlink_removes hsd hs hd
  have hrun : replaceEdgeDst k (some s) (some d) newDst h = k.addEdge (some s) newDst h₁ := by
    unfold replaceEdgeDst
    rw [bind_of_eq (show removeEdge (some s) (some d) h = some (true, h₁) from hr)]
    rfl
  have hself : FindsItself h s d ∧ FindsItself h d s ↔ x = d ∧ y = s := by
    simp only [FindsItself, hx, hy, Option.some.injEq]
  have htakes : ∀ n ∈ newDst, Takes h k d n ↔ (k = .data → h₁.peers n = []) := by
    intro n hn
    cases k with
    | control => exact ⟨fun _ hk => (nomatch hk), fun _ => trivial⟩
    | data =>
      by_cases hnd : n = d
      · subst hnd
        rw [← length_eq_zero_iff]
        have hne : h.peers n ≠ [] := fun e => by simp [e] at hlen
        simp only [Takes, hne, true_and, false_or, forall_const]
        omega
      · rw [hother n (hnew n hn) hnd]
        simp [Takes, hnd]
  unfold AllOrNothing
  rw [hrun, ← and_assoc, hself]
  rcases addEdge_eq h₁ k s newDst with ⟨n, rfl, hfree, hadd⟩ | ⟨hbusy, hadd⟩
  · -- The new edge was made: what is left to compare is the edge removed with the edge named.
    have hmoved : EdgeMoved h (Anchor.linked h₁ s n) s d n ↔ x = d ∧ y = s := by
      rw [← ends_iff hsd]
      refine forall_congr' fun a => forall_congr' fun b => ?_
      rw [linked_peers, count_push, count_push]
      have := hcount a b
      omega
    constructor
    · rintro ⟨ok, h', he, ⟨-, s', d', n', hs', hd', hn', hm⟩ | ⟨hok, -⟩⟩
      · obtain ⟨rfl, rfl⟩ : true = ok ∧ Anchor.linked h₁ s n = h' := by simpa [hadd] using he
        obtain rfl : s = s' := Option.some.inj hs'
        obtain rfl : d = d' := Option.some.inj hd'
        obtain rfl : n = n' := Option.some.inj hn'
        exact ⟨hmoved.mp hm, n, rfl, (htakes n rfl).mpr hfree⟩
      · subst hok
        simp [hadd] at he
    · rintro ⟨hxy, -⟩
      exact ⟨true, _, hadd, .inl ⟨rfl, s, d, n, rfl, rfl, rfl, hmoved.mpr hxy⟩⟩
  · -- The new edge was refused: the old one is gone all the same.
    constructor
    · rintro ⟨ok, h', he, ⟨hok, -⟩ | ⟨-, hsame⟩⟩
      · subst hok
        simp [hadd] at he
      · obtain ⟨rfl, rfl⟩ : false = ok ∧ h₁ = h' := by simpa [hadd] using he
        have h1 := hcount s x
        rw [hsame s x] at h1
        simp [one] at h1
    · rintro ⟨-, n, hn, ht⟩
      obtain ⟨hdata, hne⟩ := hbusy n hn
      exact absurd ((htakes n hn).mp ht hdata) hne

end

end EdgeReplacement

open EdgeReplacement GraphUtils

/-- Whatever the links and the three anchors of their classes are, replacing the destination of an edge is all or nothing
exactly when there is no edge to remove, or it is the edge named and the new destination takes the new one. -/
theorem replaceEdgeDst_allOrNothing_iff (h : Heap) (k : EdgeKind) (src dst newDst : Option AnchorId)
    (hsrc : ∀ s ∈ src, h.kind s = k.source) (hdst : ∀ d ∈ dst, h.kind d = k.dest)
    (hnew : ∀ n ∈ newDst, h.kind n = k.dest) :
    AllOrNothing h k src dst newDst ↔ Replaceable h k src dst newDst := by
  have hk : k.source ≠ k.dest := by cases k <;> decide
  cases src with
  | none =>
    refine iff_of_true (replaceEdgeDst_refuses rfl) ?_
    rintro _ ⟨⟩
  | some s =>
    cases dst with
    | none =>
      refine iff_of_true (replaceEdgeDst_refuses rfl) ?_
      rintro _ _ _ ⟨⟩
    | some d =>
      have hsd : s ≠ d := fun e => hk ((hsrc s rfl).symm.trans (e ▸ hdst d rfl))
      have hns : ∀ n ∈ newDst, n ≠ s := fun n hn e => hk ((hsrc s rfl).symm.trans (e ▸ hnew n hn))
      by_cases hf : Finds h s d ∧ Finds h d s
      · rw [replaceEdgeDst_removed hsd hns hf.1 hf.2]
        constructor
        · rintro hall _ ⟨⟩ _ ⟨⟩ _ _
          exact hall
        · exact fun hall => hall s rfl d rfl hf.1 hf.2
      · refine iff_of_true (replaceEdgeDst_refuses (unlink_refuses hf)) ?_
        rintro _ ⟨⟩ _ ⟨⟩ h1 h2
        exact absurd ⟨h1, h2⟩ hf

namespace EdgeReplacementWitness

/-- A node with one input and one output. -/
def unary : OpDesc := { inputsDesc := [{}], outputsDesc := [{}] }

/-- Three nodes, the output 3 of the first linked to the input 6 of the second. The input of the third is 10. -/
def linkedPair : Heap :=
  (LinkCall.runAll [.newOp unary, .newNode 0, .newNode 0, .newNode 0, .addDataEdge (some 3) (some 6)]).getD .empty

theorem replaceEdgeDst_allOrNothing_free :
    AllOrNothing linkedPair .data (some 3) (some 6) (some 10) ↔ Replaceable linkedPair .data (some 3) (some 6) (some 10) :=
  replaceEdgeDst_allOrNothing_iff linkedPair .data (some 3) (some 6) (some 10) (by decide) (by decide) (by decide)

/-- A null new destination: the edge is gone, and the call fails. -/
theorem replaceEdgeDst_loses : ¬ AllOrNothing linkedPair .data (some 3) (some 6) none := by
  rintro ⟨ok, h', he, ⟨-, s, d, n, -, -, hn, -⟩ | ⟨-, hsame⟩⟩
  · cases hn
  · have hpeers : ((replaceEdgeDst .data (some 3) (some 6) none linkedPair).map fun r => r.2.peers 3) = some [] := by decide
    rw [he] at hpeers
    have h3 := hsame 3 6
    rw [show h'.peers 3 = [] from Option.some.inj hpeers] at h3
    exact absurd h3 (by decide)

end EdgeReplacementWitness

end Metadef
