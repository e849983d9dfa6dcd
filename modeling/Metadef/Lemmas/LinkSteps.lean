import Metadef.WellFormed

/-!
# What one link function does

For each function that edits peer lists, all it can do: refuse and leave the heap, or make one edit.
-/

namespace Metadef

open List Heap Adjacency

namespace LinkAux

open Cmd

variable {h h' : Heap} {this a : AnchorId} {ok : Bool}

/-- A linking function refuses, or links the anchor to the one it is given. -/
theorem link_cases {other : Option AnchorId} {free : Heap → AnchorId → Bool} (hr : Anchor.link this other free h = some (ok, h')) :
    (ok = false ∧ h' = h) ∨
      (ok = true ∧ ∃ o, other = some o ∧ free h o = true ∧ h' = Anchor.linked h this o) := by
  cases other with
  | none =>
    obtain ⟨rfl, rfl⟩ : false = ok ∧ h = h' := by simpa [Anchor.link] using hr
    exact .inl ⟨rfl, rfl⟩
  | some o =>
    simp only [Anchor.link, get_bind_apply] at hr
    cases hf : free h o with
    | false =>
      obtain ⟨rfl, rfl⟩ : false = ok ∧ h = h' := by simpa [hf] using hr
      exact .inl ⟨rfl, rfl⟩
    | true =>
      obtain ⟨rfl, rfl⟩ : true = ok ∧ Anchor.linked h this o = h' := by simpa [hf] using hr
      exact .inr ⟨rfl, o, rfl, hf, rfl⟩

/-- Unlinking refuses, or erases an occurrence of each anchor from the peers of the other. -/
theorem unlink_cases {peer : Option AnchorId} (hr : Anchor.unlink this peer h = some (ok, h')) : (ok = false ∧ h' = h) ∨
      (ok = true ∧ ∃ p i j, peer = some p ∧ p ≠ this ∧ (h.peers this).findIdx? (Anchor.equal h p) = some i ∧
        (h.peers p).findIdx? (Anchor.equal h this) = some j ∧
        h' = (h.setPeers this ((h.peers this).eraseIdx i)).setPeers p ((h.peers p).eraseIdx j)) := by
  cases peer with
  | none =>
    obtain ⟨rfl, rfl⟩ : false = ok ∧ h = h' := by simpa [Anchor.unlink] using hr
    exact .inl ⟨rfl, rfl⟩
  | some p =>
    simp only [Anchor.unlink, get_bind_apply] at hr
    cases hi : (h.peers this).findIdx? (Anchor.equal h p) with
    | none =>
      obtain ⟨rfl, rfl⟩ : false = ok ∧ h = h' := by simpa [hi] using hr
      exact .inl ⟨rfl, rfl⟩
    | some i =>
      cases hj : (h.peers p).findIdx? (Anchor.equal h this) with
      | none =>
        obtain ⟨rfl, rfl⟩ : false = ok ∧ h = h' := by simpa [hi, hj] using hr
        exact .inl ⟨rfl, rfl⟩
      | some j =>
        by_cases hp : p = this
        · subst hp
          simp [hi] at hr
        · obtain ⟨rfl, rfl⟩ : true = ok ∧ _ = h' := by simpa [hi, hj, hp] using hr
          exact .inr ⟨rfl, p, i, j, rfl, hp, hi, hj, rfl⟩

variable {old first second : Option AnchorId} {p : AnchorId} {i : Nat}

/-- Replacing a peer refuses, or moves the ends of a link between the anchor and its old peer. -/
theorem replacePeer_cases (hr : Anchor.replacePeer this old first second h = some (ok, h')) : (ok = false ∧ h' = h) ∨
      (ok = true ∧ ∃ o f s i j, old = some o ∧ first = some f ∧ second = some s ∧ f ≠ o ∧
        (h.peers this).findIdx? (Anchor.equal h o) = some i ∧ (h.peers o).findIdx? (Anchor.equal h this) = some j ∧
        Heap.SameLayout h h' ∧
        h'.peers = Adjacency.push (Adjacency.put (Adjacency.push (Adjacency.put h.peers this i f) f this) o j s) s o) := by
  rcases old with - | o
  · obtain ⟨rfl, rfl⟩ := of_return hr
    exact .inl ⟨rfl, rfl⟩
  rcases first with - | f
  · obtain ⟨rfl, rfl⟩ := of_return hr
    exact .inl ⟨rfl, rfl⟩
  rcases second with - | s
  · obtain ⟨rfl, rfl⟩ : false = ok ∧ h = h' := by simpa [Anchor.replacePeer] using hr
    exact .inl ⟨rfl, rfl⟩
  simp only [Anchor.replacePeer, get_bind_apply] at hr
  cases hi : (h.peers this).findIdx? (Anchor.equal h o) with
  | none =>
    obtain ⟨rfl, rfl⟩ : false = ok ∧ h = h' := by simpa [hi] using hr
    exact .inl ⟨rfl, rfl⟩
  | some i =>
    cases hj : (h.peers o).findIdx? (Anchor.equal h this) with
    | none =>
      obtain ⟨rfl, rfl⟩ : false = ok ∧ h = h' := by simpa [hi, hj] using hr
      exact .inl ⟨rfl, rfl⟩
    | some j =>
      by_cases hf : f = o
      · simp [hi, hj, hf] at hr
      · simp only [hi, hj, hf, if_false, set_bind_apply, pure_apply, Option.some.injEq, Prod.mk.injEq] at hr
        obtain ⟨rfl, rfl⟩ := hr
        refine .inr ⟨rfl, o, f, s, i, j, rfl, rfl, rfl, hf, hi, hj, ?_, ?_⟩
        · exact (((sameLayout_setPeers _ _ _).trans (sameLayout_setPeers _ _ _)).trans
            (sameLayout_setPeers _ _ _)).trans (sameLayout_setPeers _ _ _)
        · funext x
          simp only [Adjacency.push, Adjacency.put, setPeers_peers, Function.update_apply]

/-! ## Sound heaps -/

/-- In a sound heap the positions an unlinking finds are those of the two anchors themselves. -/
theorem found_ends (hs : h.Sound) {j : Nat} (hi : (h.peers this).findIdx? (Anchor.equal h p) = some i)
    (hj : (h.peers p).findIdx? (Anchor.equal h this) = some j) :
    (h.peers this)[i]? = some p ∧ (h.peers p)[j]? = some this := by
  obtain ⟨hilt, -, -⟩ := findIdx?_eq_some_iff_getElem.mp hi
  obtain ⟨hjlt, -, -⟩ := findIdx?_eq_some_iff_getElem.mp hj
  have hthis : h.Held this := hs.symm.held hs.peersHeld (getElem_mem hilt)
  have hp : h.Held p := hs.symm.held hs.peersHeld (getElem_mem hjlt)
  exact ⟨hs.laid.getElem?_of_findIdx? hp (hs.peersHeld this) hi, hs.laid.getElem?_of_findIdx? hthis (hs.peersHeld p) hj⟩

/-- Erasing at the first position of an item. -/
theorem eraseIdx_of_findIdx? {l : List AnchorId} {q : AnchorId → Bool}
    (hq : ∀ b ∈ l, q b = true ↔ b = p) (hi : l.findIdx? q = some i) : l.eraseIdx i = l.erase p := by
  induction l generalizing i with
  | nil => simp at hi
  | cons b l ih =>
    have hb := hq b mem_cons_self
    rw [findIdx?_cons] at hi
    cases hqb : q b with
    | true =>
      rw [hqb] at hi
      obtain rfl : 0 = i := by simpa using hi
      rw [hb.mp hqb, erase_cons_head]
      rfl
    | false =>
      have hne : b ≠ p := fun e => by simp [hb.mpr e] at hqb
      simp only [hqb, Bool.false_eq_true, if_false, Option.map_eq_some_iff] at hi
      obtain ⟨k, hk, rfl⟩ := hi
      rw [eraseIdx_cons_succ, erase_cons_tail (by simpa using hne)]
      exact congrArg (b :: ·) (ih (fun c hc => hq c (mem_cons_of_mem b hc)) hk)

/-- Unlinking keeps a heap sound. -/
theorem keeps_unlink (this : AnchorId) (peer : Option AnchorId) : Keeps Heap.Sound (Anchor.unlink this peer) := by
  intro h ok h' hs hr
  rcases unlink_cases hr with ⟨-, rfl⟩ | ⟨-, p, i, j, rfl, hp, hi, hj, rfl⟩
  · exact hs
  · obtain ⟨hi', hj'⟩ := found_ends hs hi hj
    have hpeers : ((h.setPeers this ((h.peers this).eraseIdx i)).setPeers p ((h.peers p).eraseIdx j)).peers =
        Adjacency.cut (Adjacency.cut h.peers this i) p j := by
      funext x
      simp only [Adjacency.cut, setPeers_peers, Function.update_apply, hp, if_false]
    refine hs.of_peers ((sameLayout_setPeers _ _ _).trans (sameLayout_setPeers _ _ _)) ?_ fun x y hy => ?_
    · rw [Heap.MutualLinks, hpeers]
      exact hs.symm.part (Ne.symm hp) hi' hj'
    · rw [hpeers] at hy
      exact hs.peersHeld x y (mem_of_mem_cut (mem_of_mem_cut hy))

/-- Unlinking that succeeds in a sound heap erases each anchor once from the peers of the other. -/
theorem unlink_true (hs : h.Sound) (hr : Anchor.unlink this (some p) h = some (true, h')) :
    p ≠ this ∧ p ∈ h.peers this ∧ Heap.SameLayout h h' ∧
      ∀ a, h'.peers a = if a = p then (h.peers p).erase this else if a = this then (h.peers this).erase p else h.peers a := by
  rcases unlink_cases hr with ⟨hfalse, -⟩ | ⟨-, q, i, j, hq, hp, hi, hj, rfl⟩
  · cases hfalse
  · obtain rfl : p = q := Option.some.inj hq
    obtain ⟨hi', hj'⟩ := found_ends hs hi hj
    have hmem := mem_of_getElem? hi'
    have hheldp : h.Held p := hs.peersHeld this p hmem
    have hheld : h.Held this := hs.peersHeld p this (mem_of_getElem? hj')
    have heq : ∀ b ∈ h.peers this, Anchor.equal h p b = true ↔ b = p := fun b hb =>
      ⟨fun he => (hs.laid.eq_of_equal hheldp (hs.peersHeld this b hb) he).symm, fun e => e ▸ equal_refl h b⟩
    have heq' : ∀ b ∈ h.peers p, Anchor.equal h this b = true ↔ b = this := fun b hb =>
      ⟨fun he => (hs.laid.eq_of_equal hheld (hs.peersHeld p b hb) he).symm, fun e => e ▸ equal_refl h b⟩
    refine ⟨hp, hmem, (sameLayout_setPeers _ _ _).trans (sameLayout_setPeers _ _ _), fun a => ?_⟩
    rw [setPeers_peers, setPeers_peers, eraseIdx_of_findIdx? heq hi, eraseIdx_of_findIdx? heq' hj]

/-- Unlinking two anchors that are linked goes through. -/
theorem unlink_returns (hs : h.Sound) (hp : p ∈ h.peers this) (hne : p ≠ this) :
    ∃ h', Anchor.unlink this (some p) h = some (true, h') := by
  have hfound : ∀ {a b : AnchorId}, b ∈ h.peers a → ∃ i, (h.peers a).findIdx? (Anchor.equal h b) = some i := by
    intro a b hb
    refine Option.isSome_iff_exists.mp ?_
    rw [findIdx?_isSome]
    exact any_eq_true.mpr ⟨b, hb, equal_refl h b⟩
  obtain ⟨i, hi⟩ := hfound hp
  obtain ⟨j, hj⟩ := hfound (hs.symm.mem hp)
  refine ⟨(h.setPeers this ((h.peers this).eraseIdx i)).setPeers p ((h.peers p).eraseIdx j), ?_⟩
  simp only [Anchor.unlink, get_bind_apply, hi, hj, hne, if_false, set_bind_apply, pure_apply]

/-- Unlinking all peers of an anchor of a sound heap leaves it without peers. -/
theorem unlinkAll_peers (hs : h.Sound) (hr : Anchor.unlinkAll this h = some ((), h')) : h'.peers this = [] := by
  have hloop : ∀ n (h h' : Heap), h.Sound → (h.peers this).length = n → Anchor.unlinkLoop this n h = some ((), h') →
      h'.peers this = [] := by
    intro n
    induction n with
    | zero =>
      intro h h' _ hlen hr
      obtain rfl : h = h' := by simpa [Anchor.unlinkLoop] using hr
      exact length_eq_zero_iff.mp hlen
    | succ n ih =>
      intro h h' hs hlen hr
      simp only [Anchor.unlinkLoop, get_bind_apply] at hr
      cases hp : (h.peers this).head? with
      | none => simp [head?_eq_none_iff.mp hp] at hlen
      | some p =>
        simp only [hp] at hr
        obtain ⟨ok, m, hm, hrest⟩ := bind_eq_some.mp hr
        cases ok with
        | false => cases hrest
        | true =>
          obtain ⟨hne, hmem, -, hpeers⟩ := unlink_true hs hm
          have hlen' : (m.peers this).length = n := by
            rw [hpeers, if_neg (Ne.symm hne), if_pos rfl, length_erase_of_mem hmem, hlen]
            rfl
          exact ih m h' (keeps_unlink this (some p) h true m hs hm) hlen' (by simpa using hrest)
  exact hloop _ h h' hs rfl hr

/-- What unlinking keeps, unlinking all peers keeps. -/
theorem keeps_unlinkAll {P : Heap → Prop} (hP : ∀ peer, Keeps P (Anchor.unlink this peer)) : Keeps P (Anchor.unlinkAll this) := by
  have hloop : ∀ n, Keeps P (Anchor.unlinkLoop this n) := by
    intro n
    induction n with
    | zero => exact Keeps.pure ()
    | succ n ih =>
      intro h u h' hs hr
      simp only [Anchor.unlinkLoop, get_bind_apply] at hr
      cases hp : (h.peers this).head? with
      | none =>
        obtain rfl : h = h' := by simpa [hp] using hr
        exact hs
      | some p =>
        simp only [hp] at hr
        refine Keeps.bind (hP (some p)) (fun ok => ?_) h u h' hs hr
        exact Keeps.ite (fun _ => ih) fun _ => Keeps.undef
  intro h u h' hs hr
  exact hloop _ h u h' hs hr

/-- Unlinking gives no anchor a peer. -/
theorem keeps_unlinked (a this : AnchorId) (peer : Option AnchorId) :
    Keeps (fun h => h.peers a = []) (Anchor.unlink this peer) := by
  intro h ok h' ha hr
  rcases unlink_cases hr with ⟨-, rfl⟩ | ⟨-, p, i, j, rfl, -, -, -, rfl⟩
  · exact ha
  · simp only [setPeers_peers]
    split
    · rename_i he
      rw [← he, ha, eraseIdx_nil]
    · split
      · rename_i he
        rw [← he, ha, eraseIdx_nil]
      · exact ha

/-- Replacing a peer that is another anchor by held anchors keeps a heap sound. -/
theorem sound_replacePeer (hs : h.Sound) (hr : Anchor.replacePeer this old first second h = some (ok, h')) (hold : old ≠ some this)
    (hf : ∀ f ∈ first, h.Held f) (hsec : ∀ s ∈ second, h.Held s) : h'.Sound := by
  rcases replacePeer_cases hr with ⟨-, rfl⟩ | ⟨-, o, f, s, i, j, rfl, rfl, rfl, hfo, hi, hj, hlayout, hpeers⟩
  · exact hs
  · obtain ⟨hi', hj'⟩ := found_ends hs hi hj
    have hne : this ≠ o := fun e => hold (congrArg some e.symm)
    refine hs.of_peers hlayout ?_ fun x y hy => ?_
    · rw [Heap.MutualLinks, hpeers]
      exact hs.symm.move hne hfo hi' hj'
    · rw [hpeers, mem_push] at hy
      rcases hy with hy | ⟨-, rfl⟩
      · rcases mem_of_mem_put hy with hy | rfl
        · rcases Adjacency.mem_push.mp hy with hy | ⟨-, rfl⟩
          · rcases mem_of_mem_put hy with hy | rfl
            · exact hs.peersHeld x y hy
            · exact hf y rfl
          · exact hs.peersHeld o y (mem_of_getElem? hj')
        · exact hsec y rfl
      · exact hs.peersHeld this y (mem_of_getElem? hi')

end LinkAux

end Metadef
