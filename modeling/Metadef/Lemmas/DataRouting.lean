import Metadef.Lemmas.IsolateSteps

/-!
# What relinking does to the links of inputs

The loop over the outputs of a node is followed through the links of one input at a time. An input keeps its links unless it
is the one an output is mapped to or is fed by an output of the loop.
-/

namespace Metadef

open List

namespace RoutingAux

open Cmd Heap LinkAux IsolateAux

variable {h h' : Heap}

/-! ## One output -/

/-- Unlinking all peers of an anchor leaves the links of the anchors it is not linked to, and adds none. -/
theorem unlinkAll_others (hs : h.Sound) {o : AnchorId} (hr : Anchor.unlinkAll o h = some ((), h')) :
    h'.Sound ∧ SameLayout h h' ∧ h'.peers o = [] ∧ (∀ y, h'.peers y ⊆ h.peers y) ∧
      ∀ y, y ≠ o → o ∉ h.peers y → h'.peers y = h.peers y := by
  have hkeep : ∀ peer, Keeps (fun g => g.Sound ∧ SameLayout h g ∧ (∀ y, g.peers y ⊆ h.peers y) ∧
      ∀ y, y ≠ o → o ∉ h.peers y → g.peers y = h.peers y) (Anchor.unlink o peer) := by
    rintro peer g ok g' ⟨hs, hl, hsub, hsame⟩ hr
    cases ok with
    | false =>
      rcases unlink_cases hr with ⟨-, rfl⟩ | ⟨hok, -⟩
      · exact ⟨hs, hl, hsub, hsame⟩
      · cases hok
    | true =>
      rcases unlink_cases hr with ⟨hok, -⟩ | ⟨-, p, -, -, rfl, -⟩
      · cases hok
      · obtain ⟨-, hmem, hlayout, hpeers⟩ := unlink_true hs hr
        refine ⟨keeps_unlink o (some p) g true g' hs hr, hl.trans hlayout, fun y => ?_, fun y hyo hoy => ?_⟩
        · refine List.Subset.trans ?_ (hsub y)
          rw [hpeers]
          split
          · rename_i hy
            exact hy ▸ erase_subset
          · split
            · rename_i hy
              exact hy ▸ erase_subset
            · exact List.Subset.refl _
        · have hyp : y ≠ p := by
            rintro rfl
            exact hoy (hsub y (hs.symm.mem hmem))
          rw [hpeers, if_neg hyp, if_neg hyo]
          exact hsame y hyo hoy
  obtain ⟨hs', hl, hsub, hsame⟩ := keeps_unlinkAll hkeep h () h'
    ⟨hs, SameLayout.refl h, fun _ => List.Subset.refl _, fun _ _ _ => rfl⟩ hr
  exact ⟨hs', hl, unlinkAll_peers hs hr, hsub, hsame⟩

/-- Moving inputs from an output to another leaves each of them fed by the new one alone, and every other input alone. -/
theorem moveInputs_inputs {s o : AnchorId} (hks : (h.kind s).isIn = false) (hko : (h.kind o).isIn = false) (hheld : h.Held s)
    {ps : List AnchorId} (hps : ∀ p ∈ ps, h.Held p ∧ h.kind p = .inData) :
    ∀ {g pairs}, g.Sound → SameLayout h g → GraphUtils.moveInputs s o ps g = some (some pairs, h') →
      h'.Sound ∧ SameLayout h h' ∧ ∀ y, h.kind y = .inData → h'.peers y = if y ∈ ps then [s] else g.peers y := by
  induction ps with
  | nil =>
    intro g pairs hs hl hr
    obtain ⟨-, rfl⟩ := of_return hr
    exact ⟨hs, hl, fun y _ => by rw [if_neg not_mem_nil]⟩
  | cons p ps ih =>
    intro g pairs hs hl hr
    obtain ⟨hheldp, hkp⟩ := hps p mem_cons_self
    have hne : ∀ {y a : AnchorId}, h.kind y = .inData → (h.kind a).isIn = false → y ≠ a := by
      rintro y _ hy ha rfl
      rw [hy] at ha
      cases ha
    unfold GraphUtils.moveInputs at hr
    obtain ⟨ok, g₁, hunlink, hr⟩ := bind_eq_some.mp hr
    cases ok with
    | false => simp at hr
    | true =>
      simp only [Bool.not_true, Bool.false_eq_true, if_false] at hr
      obtain ⟨ok', g₂, hlink, hr⟩ := bind_eq_some.mp hr
      cases ok' with
      | false => simp at hr
      | true =>
        simp only [Bool.not_true, Bool.false_eq_true, if_false, get_bind_apply] at hr
        obtain ⟨rest, g₃, hmove, hrest⟩ := bind_eq_some.mp hr
        cases rest with
        | none => simp at hrest
        | some rest =>
          obtain ⟨-, rfl⟩ := of_return hrest
          have hs₁ := keeps_unlink p (some o) g true g₁ hs hunlink
          obtain ⟨-, -, hl₁, hpeers₁⟩ := unlink_true hs hunlink
          have hl₁' := hl.trans hl₁
          rcases link_cases hlink with ⟨hfalse, -⟩ | ⟨-, s', hs', hfree, heq⟩
          · cases hfalse
          · obtain rfl : s = s' := Option.some.inj hs'
            have hempty : g₁.peers p = [] := List.isEmpty_iff.mp hfree
            have hs₂ : g₂.Sound := heq ▸ hs₁.linked ((hl₁'.held p).mpr hheldp) ((hl₁'.held s).mpr hheld)
            have hl₂ : SameLayout h g₂ := heq ▸ hl₁'.trans (sameLayout_linked g₁ p s)
            obtain ⟨hs₃, hl₃, hpeers₃⟩ := ih (fun q hq => hps q (mem_cons_of_mem p hq)) hs₂ hl₂ hmove
            refine ⟨hs₃, hl₃, fun y hy => ?_⟩
            have hys := hne hy hks
            have hyo := hne hy hko
            have hmoved : g₂.peers y = if y = p then [s] else g.peers y := by
              rw [heq, linked_peers, Adjacency.push, Function.update_of_ne hys, Adjacency.push, Function.update_apply]
              split
              · rw [hempty, nil_append]
              · rename_i hyp
                rw [hpeers₁, if_neg hyo, if_neg hyp]
            rw [hpeers₃ y hy, hmoved]
            by_cases hyp : y = p
            · simp [hyp]
            · simp [hyp]

/-- What relinking one output leaves of the links of inputs: it takes them from the output, or does nothing as the input it is
mapped to has no source, or moves them to that source and takes the input's link to it. -/
theorem relinkOutput_cases (hs : h.Sound) {ins : List AnchorId} {o : AnchorId} {k : Int} (hko : h.kind o = .outData)
    {pairs : List (NodeId × NodeId)} (hr : GraphUtils.relinkOutput ins o k h = some (some pairs, h')) :
    h'.Sound ∧ SameLayout h h' ∧
      ((k < 0 ∧ h'.peers o = [] ∧ (∀ y, h'.peers y ⊆ h.peers y) ∧ ∀ y, y ≠ o → o ∉ h.peers y → h'.peers y = h.peers y) ∨
        (0 ≤ k ∧ ∃ a, ins[k.toNat]? = some a ∧ ((InDataAnchor.getPeerOutAnchor h a = none ∧ h' = h) ∨
          ∃ s, InDataAnchor.getPeerOutAnchor h a = some s ∧ (h.kind a = .inData → ∀ y, h.kind y = .inData →
            h'.peers y = if o ∈ (if y = a then (h.peers a).erase s else h.peers y) then [s]
              else if y = a then (h.peers a).erase s else h.peers y)))) := by
  unfold GraphUtils.relinkOutput at hr
  by_cases hneg : k < 0
  · rw [if_pos hneg] at hr
    obtain ⟨u, m, hunlink, hr⟩ := bind_eq_some.mp hr
    obtain ⟨-, rfl⟩ := of_return hr
    obtain ⟨hs', hl, hempty, hsub, hsame⟩ := unlinkAll_others hs hunlink
    exact ⟨hs', hl, .inl ⟨hneg, hempty, hsub, hsame⟩⟩
  · rw [if_neg hneg] at hr
    cases ha : ins[k.toNat]? with
    | none => simp [ha] at hr
    | some a =>
      simp only [ha, get_bind_apply] at hr
      cases hp : InDataAnchor.getPeerOutAnchor h a with
      | none =>
        simp only [hp] at hr
        obtain ⟨-, rfl⟩ := of_return hr
        exact ⟨hs, SameLayout.refl h, .inr ⟨Int.not_lt.mp hneg, a, rfl, .inl ⟨hp, rfl⟩⟩⟩
      | some s =>
        simp only [hp] at hr
        obtain ⟨ok, m, hunlink, hr⟩ := bind_eq_some.mp hr
        cases ok with
        | false => simp at hr
        | true =>
          simp only [Bool.not_true, Bool.false_eq_true, if_false, GraphUtils.replaceOutDataAnchor, get_bind_apply] at hr
          obtain ⟨hsmem, hks⟩ := of_getPeerOutAnchor hp
          have hsm := keeps_unlink s (some a) h true m hs hunlink
          obtain ⟨-, -, hl, hpeers⟩ := unlink_true hs hunlink
          have hmoving : ∀ p ∈ OutDataAnchor.getPeerInDataAnchors m o, h.Held p ∧ h.kind p = .inData := by
            intro p hp
            obtain ⟨hp, hkp⟩ := mem_filter.mp hp
            exact ⟨(hl.held p).mp (hsm.peersHeld o p hp), (hl.kind p).symm.trans (of_decide_eq_true hkp)⟩
          obtain ⟨hs', hl', hmoved⟩ := moveInputs_inputs (s := s) (o := o) (by rw [hks]; rfl) (by rw [hko]; rfl)
            (hs.peersHeld a s hsmem) hmoving hsm hl hr
          refine ⟨hs', hl', .inr ⟨Int.not_lt.mp hneg, a, rfl, .inr ⟨s, hp, fun hka y hy => ?_⟩⟩⟩
          have hys : y ≠ s := by
            rintro rfl
            rw [hy] at hks
            cases hks
          have hleft : m.peers y = if y = a then (h.peers a).erase s else h.peers y := by
            rw [hpeers, if_neg hys]
          have hfed : y ∈ OutDataAnchor.getPeerInDataAnchors m o ↔ o ∈ m.peers y := by
            refine mem_filter.trans ⟨fun hy => hsm.symm.mem hy.1, fun ho => ⟨hsm.symm.mem ho, ?_⟩⟩
            exact decide_eq_true ((hl.kind y).trans hy)
          rw [hmoved y hy, ← hleft]
          by_cases ho : o ∈ m.peers y
          · rw [if_pos ho, if_pos (hfed.mpr ho)]
          · rw [if_neg ho, if_neg fun hm => ho (hfed.mp hm)]

/-- The input an entry of the map names. -/
def inputOf (ins : List AnchorId) (k : Int) : Option AnchorId := if k < 0 then none else ins[k.toNat]?

/-- The anchors of a relinking: inputs and outputs of the classes the accessors list. -/
structure Ends (h : Heap) (ins outs : List AnchorId) : Prop where
  ins : ∀ a ∈ ins, h.kind a = .inData
  outs : ∀ o ∈ outs, h.kind o = .outData

theorem Ends.tail {ins outs : List AnchorId} {o : AnchorId} (he : Ends h ins (o :: outs)) (hl : SameLayout h h') :
    Ends h' ins outs :=
  ⟨fun a ha => (hl.kind a).trans (he.ins a ha), fun b hb => (hl.kind b).trans (he.outs b (mem_cons_of_mem o hb))⟩

section
variable {ins outs : List AnchorId} {o x a p : AnchorId} {k : Int} {pairs : List (NodeId × NodeId)}

/-- An input keeps its links when the output does not feed it and it is not the one mapped to, or has none. -/
theorem relinkOutput_keeps (hs : h.Sound) (he : Ends h ins (o :: outs))
    (hr : GraphUtils.relinkOutput ins o k h = some (some pairs, h')) (hx : h.kind x = .inData) (ho : o ∉ h.peers x)
    (hin : inputOf ins k ≠ some x ∨ h.peers x = []) : h'.peers x = h.peers x := by
  have hko := he.outs o mem_cons_self
  have hxo : x ≠ o := by
    rintro rfl
    rw [hx] at hko
    cases hko
  obtain ⟨-, -, ⟨-, -, -, hsame⟩ | ⟨hk, b, hb, ⟨-, rfl⟩ | ⟨s, hp, hpeers⟩⟩⟩ := relinkOutput_cases hs hko hr
  · exact hsame x hxo ho
  · rfl
  · have hxb : x ≠ b := by
      rintro rfl
      rcases hin with hin | hin
      · exact hin (by rw [inputOf, if_neg (Int.not_lt.mpr hk), hb])
      · have hmem := (of_getPeerOutAnchor hp).1
        rw [hin] at hmem
        cases hmem
    rw [hpeers (he.ins b (mem_of_getElem? hb)) x hx, if_neg hxb, if_neg ho]

/-- An input fed by another output loses its link to the output that is mapped to it. -/
theorem relinkOutput_takes (hs : h.Sound) (he : Ends h ins (o :: outs))
    (hr : GraphUtils.relinkOutput ins o k h = some (some pairs, h')) (ha : inputOf ins k = some a) (hp : h.peers a = [p])
    (hkp : h.kind p = .outData) : h'.peers a = [] ∧ ∀ x, h.kind x = .inData → x ≠ a → o ∈ h.peers x → h'.peers x = [p] := by
  unfold inputOf at ha
  split at ha
  · cases ha
  · rename_i hneg
    have hka := he.ins a (mem_of_getElem? ha)
    have hpeer : InDataAnchor.getPeerOutAnchor h a = some p := by
      simp [InDataAnchor.getPeerOutAnchor, hp, hkp]
    obtain ⟨-, -, ⟨hk, -⟩ | ⟨-, b, hb, ⟨hnone, -⟩ | ⟨s, hs', hpeers⟩⟩⟩ := relinkOutput_cases hs (he.outs o mem_cons_self) hr
    · exact absurd hk hneg
    · obtain rfl : a = b := Option.some.inj (ha.symm.trans hb)
      rw [hpeer] at hnone
      cases hnone
    · obtain rfl : a = b := Option.some.inj (ha.symm.trans hb)
      obtain rfl : p = s := Option.some.inj (hpeer.symm.trans hs')
      refine ⟨?_, fun x hx hxa hox => ?_⟩
      · rw [hpeers hka a hka, if_pos rfl, hp]
        simp
      · rw [hpeers hka x hx, if_neg hxa, if_pos hox]

/-- An input whose only link is to an output to come keeps it or loses it. -/
theorem relinkOutput_waits (hs : h.Sound) (he : Ends h ins (o :: outs))
    (hr : GraphUtils.relinkOutput ins o k h = some (some pairs, h')) (hx : h.kind x = .inData) {o' : AnchorId} (ho : o ≠ o')
    (hsub : h.peers x ⊆ [o']) : h'.peers x ⊆ [o'] := by
  have hnot : o ∉ h.peers x := fun hm => ho (mem_singleton.mp (hsub hm))
  obtain ⟨-, -, ⟨-, -, hless, -⟩ | ⟨hk, b, hb, ⟨-, rfl⟩ | ⟨s, hp, hpeers⟩⟩⟩ :=
    relinkOutput_cases hs (he.outs o mem_cons_self) hr
  · exact fun y hy => hsub (hless x hy)
  · exact hsub
  · rw [hpeers (he.ins b (mem_of_getElem? hb)) x hx]
    by_cases hxb : x = b
    · subst hxb
      rw [if_pos rfl, if_neg fun hm => hnot (erase_subset hm)]
      exact fun y hy => hsub (erase_subset hy)
    · rw [if_neg hxb, if_neg hnot]
      exact hsub

/-! ## The loop -/

/-- A loop that succeeds has succeeded on its first output, and on the others after it. -/
theorem relinkOutputs_cons {ioMap : List Int} (hr : GraphUtils.relinkOutputs ins (o :: outs) ioMap h = some (some pairs, h')) :
    ∃ first rest m, GraphUtils.relinkOutput ins o (ioMap.headD (-1)) h = some (some first, m) ∧
      GraphUtils.relinkOutputs ins outs ioMap.tail m = some (some rest, h') := by
  unfold GraphUtils.relinkOutputs at hr
  obtain ⟨r, m, hm, hr⟩ := bind_eq_some.mp hr
  cases r with
  | none => simp at hr
  | some first =>
    obtain ⟨r, m', hm', hr⟩ := bind_eq_some.mp hr
    cases r with
    | none => simp at hr
    | some rest =>
      obtain ⟨-, rfl⟩ := of_return hr
      exact ⟨first, rest, m, hm, hm'⟩

/-- The loop leaves an input that is none of the node's and is fed by none of the outputs, and one without links. -/
theorem relinkOutputs_keeps (outs : List AnchorId) : ∀ {h : Heap} {ioMap : List Int} {pairs}, h.Sound → Ends h ins outs →
    GraphUtils.relinkOutputs ins outs ioMap h = some (some pairs, h') →
    h'.Sound ∧ SameLayout h h' ∧ ∀ x, h.kind x = .inData → (x ∉ ins ∧ ∀ o ∈ outs, o ∉ h.peers x) ∨ h.peers x = [] →
      h'.peers x = h.peers x := by
  induction outs with
  | nil =>
    intro h ioMap pairs hs _ hr
    obtain ⟨-, rfl⟩ := of_return hr
    exact ⟨hs, SameLayout.refl h, fun _ _ _ => rfl⟩
  | cons o outs ih =>
    intro h ioMap pairs hs he hr
    obtain ⟨first, rest, m, hm, hr⟩ := relinkOutputs_cons hr
    obtain ⟨hsm, hl, -⟩ := relinkOutput_cases hs (he.outs o mem_cons_self) hm
    obtain ⟨hs', hl', hkeeps⟩ := ih hsm (he.tail hl) hr
    refine ⟨hs', hl.trans hl', fun x hx hor => ?_⟩
    have hstep : m.peers x = h.peers x := by
      refine relinkOutput_keeps hs he hm hx ?_ ?_
      · rcases hor with ⟨-, hout⟩ | hnil
        · exact hout o mem_cons_self
        · rw [hnil]
          exact not_mem_nil
      · refine hor.imp_left fun hor hin => ?_
        unfold inputOf at hin
        split at hin
        · cases hin
        · exact hor.1 (mem_of_getElem? hin)
    rw [hkeeps x ((hl.kind x).trans hx) ?_, hstep]
    rw [hstep]
    exact hor.imp_left fun hor => ⟨hor.1, fun b hb => hor.2 b (mem_cons_of_mem o hb)⟩

theorem getD_zero (ioMap : List Int) : ioMap.getD 0 (-1) = ioMap.headD (-1) := by
  cases ioMap <;> rfl

theorem getD_tail (ioMap : List Int) (j : Nat) : ioMap.tail.getD j (-1) = ioMap.getD (j + 1) (-1) := by
  cases ioMap <;> simp

/-- An input whose only link is to an output mapped to nothing ends without links. -/
theorem relinkOutputs_unmapped (outs : List AnchorId) : ∀ {h : Heap} {ioMap : List Int} {pairs} {i : Nat}, h.Sound →
    Ends h ins outs → outs.Nodup → GraphUtils.relinkOutputs ins outs ioMap h = some (some pairs, h') →
    outs[i]? = some o → ioMap.getD i (-1) < 0 → h.kind x = .inData → h.peers x ⊆ [o] → h'.peers x = [] := by
  induction outs with
  | nil =>
    intro h ioMap pairs i _ _ _ _ hi
    cases hi
  | cons b outs ih =>
    intro h ioMap pairs i hs he hnd hr hi hneg hx hsub
    obtain ⟨first, rest, m, hm, hr⟩ := relinkOutputs_cons hr
    obtain ⟨hsm, hl, hcases⟩ := relinkOutput_cases hs (he.outs b mem_cons_self) hm
    have hxm : m.kind x = .inData := (hl.kind x).trans hx
    cases i with
    | zero =>
      obtain rfl : b = o := Option.some.inj hi
      have hneg' : ioMap.headD (-1) < 0 := getD_zero ioMap ▸ hneg
      obtain ⟨-, hempty, hless, -⟩ | ⟨hk, -⟩ := hcases
      · have hnil : m.peers x = [] := by
          refine eq_nil_iff_forall_not_mem.mpr fun y hy => ?_
          obtain rfl : y = b := mem_singleton.mp (hsub (hless x hy))
          have hback := hsm.symm.mem hy
          rw [hempty] at hback
          cases hback
        obtain ⟨-, -, hkeeps⟩ := relinkOutputs_keeps outs hsm (he.tail hl) hr
        exact (hkeeps x hxm (.inr hnil)).trans hnil
      · exact absurd hneg' (Int.not_lt.mpr hk)
    | succ i =>
      rw [getElem?_cons_succ] at hi
      have hbo : b ≠ o := fun e => (nodup_cons.mp hnd).1 (e ▸ mem_of_getElem? hi)
      refine ih hsm (he.tail hl) (nodup_cons.mp hnd).2 hr hi ?_ hxm (relinkOutput_waits hs he hm hx hbo hsub)
      rw [getD_tail]
      exact hneg

/-- An input fed by an output mapped to an input of the node ends fed by the source of that input when no output before is
mapped to the same, and stays as it is otherwise. -/
theorem relinkOutputs_mapped (outs : List AnchorId) : ∀ {h : Heap} {ioMap : List Int} {pairs} {i : Nat}, h.Sound →
    Ends h ins outs → outs.Nodup → GraphUtils.relinkOutputs ins outs ioMap h = some (some pairs, h') →
    outs[i]? = some o → inputOf ins (ioMap.getD i (-1)) = some a → h.kind p = .outData → p ∉ outs → h.kind x = .inData →
    x ∉ ins → h.peers x = [o] → h.peers a = [p] ∨ h.peers a = [] →
    h'.peers x = if h.peers a = [p] ∧ ∀ j < i, inputOf ins (ioMap.getD j (-1)) ≠ some a then [p] else [o] := by
  induction outs with
  | nil =>
    intro h ioMap pairs i _ _ _ _ hi
    cases hi
  | cons b outs ih =>
    intro h ioMap pairs i hs he hnd hr hi ha hkp hpout hx hxin hpx hpa
    obtain ⟨first, rest, m, hm, hr⟩ := relinkOutputs_cons hr
    obtain ⟨hsm, hl, hcases⟩ := relinkOutput_cases hs (he.outs b mem_cons_self) hm
    have hxm : m.kind x = .inData := (hl.kind x).trans hx
    have haa : a ∈ ins := by
      unfold inputOf at ha
      split at ha
      · cases ha
      · exact mem_of_getElem? ha
    have hka := he.ins a haa
    have hpb : p ≠ b := fun e => hpout (e ▸ mem_cons_self)
    have hpout' : p ∉ outs := fun hm => hpout (mem_cons_of_mem b hm)
    cases i with
    | zero =>
      obtain rfl : b = o := Option.some.inj hi
      rw [getD_zero] at ha
      obtain ⟨-, -, hkeeps⟩ := relinkOutputs_keeps outs hsm (he.tail hl) hr
      rcases hpa with hpa | hpa
      · have hmx : m.peers x = [p] :=
          (relinkOutput_takes hs he hm ha hpa hkp).2 x hx (fun e => hxin (e ▸ haa)) (hpx ▸ mem_cons_self)
        rw [if_pos ⟨hpa, fun j hj => absurd hj (Nat.not_lt_zero j)⟩, hkeeps x hxm ?_, hmx]
        refine .inl ⟨hxin, fun c hc hmem => hpout' ?_⟩
        rw [hmx] at hmem
        exact mem_singleton.mp hmem ▸ hc
      · have hstay : m = h := by
          unfold inputOf at ha
          split at ha
          · cases ha
          · rename_i hneg
            obtain ⟨hk, -⟩ | ⟨-, c, hc, ⟨-, hstay⟩ | ⟨s, hsome, -⟩⟩ := hcases
            · exact absurd hk hneg
            · exact hstay
            · obtain rfl : a = c := Option.some.inj (ha.symm.trans hc)
              have hmem := (of_getPeerOutAnchor hsome).1
              rw [hpa] at hmem
              cases hmem
        subst hstay
        rw [if_neg fun h => by simp [hpa] at h, hkeeps x hx ?_, hpx]
        refine .inl ⟨hxin, fun c hc hmem => (nodup_cons.mp hnd).1 ?_⟩
        rw [hpx] at hmem
        exact mem_singleton.mp hmem ▸ hc
    | succ i =>
      rw [getElem?_cons_succ] at hi
      have hbo : b ≠ o := fun e => (nodup_cons.mp hnd).1 (e ▸ mem_of_getElem? hi)
      have hmx : m.peers x = [o] := by
        rw [relinkOutput_keeps hs he hm hx ?_ (.inl fun hin => hxin ?_), hpx]
        · rw [hpx]
          exact fun hm => hbo (mem_singleton.mp hm)
        · unfold inputOf at hin
          split at hin
          · cases hin
          · exact mem_of_getElem? hin
      have hba : b ∉ h.peers a := by
        rcases hpa with hpa | hpa <;> rw [hpa]
        · exact fun hm => hpb (mem_singleton.mp hm).symm
        · exact not_mem_nil
      have hma : m.peers a = if inputOf ins (ioMap.headD (-1)) = some a then [] else h.peers a := by
        split
        · rename_i hin
          rcases hpa with hpa | hpa
          · exact (relinkOutput_takes hs he hm hin hpa hkp).1
          · rw [relinkOutput_keeps hs he hm hka hba (.inr hpa), hpa]
        · rename_i hin
          exact relinkOutput_keeps hs he hm hka hba (.inl hin)
      have hsplit : (∀ j < i + 1, inputOf ins (ioMap.getD j (-1)) ≠ some a) ↔
          inputOf ins (ioMap.headD (-1)) ≠ some a ∧ ∀ j < i, inputOf ins (ioMap.tail.getD j (-1)) ≠ some a := by
        refine (Nat.forall_lt_succ_left (p := fun j => inputOf ins (ioMap.getD j (-1)) ≠ some a)).trans ?_
        simp only [getD_zero, getD_tail]
      rw [ih hsm (he.tail hl) (nodup_cons.mp hnd).2 hr hi (by rw [getD_tail]; exact ha)
        ((hl.kind p).trans hkp) hpout' hxm hxin hmx ?_]
      · refine if_congr ?_ rfl rfl
        rw [hsplit, hma]
        split
        · rename_i hin
          exact iff_of_false (fun h => cons_ne_nil p [] h.1.symm) fun h => h.2.1 hin
        · rename_i hin
          exact ⟨fun h => ⟨h.1, hin, h.2⟩, fun h => ⟨h.1, h.2.2⟩⟩
      · rw [hma]
        split
        · exact .inr rfl
        · exact hpa

end

end RoutingAux

end Metadef
