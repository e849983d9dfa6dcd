import Metadef.Lib.Preorder

/-! # Worklists without marks

A queue from which the first item is taken and refilled with what the item leads to, seen before or not. An item may lead to
nothing at all, which ends the loop with failure. The loop ends exactly when such an item can be reached, or no item can be led to
for ever. -/

namespace Metadef

open List

namespace Worklist

open Relation

variable {ν : Type} {kids : ν → Option (List ν)} {queue : List ν} {x y : ν}

/-- The loop: whether it ends well, none when it takes more items than a bound. -/
def drain (kids : ν → Option (List ν)) : Nat → List ν → Option Bool
  | 0, _ => none
  | _ + 1, [] => some true
  | fuel + 1, x :: queue =>
    match kids x with
    | none => some false
    | some l => drain kids fuel (queue ++ l)

/-- An item is one of those another leads to. -/
def Child (kids : ν → Option (List ν)) (y x : ν) : Prop := ∃ l, kids x = some l ∧ y ∈ l

/-- An item can be reached from another. -/
def Reaches (kids : ν → Option (List ν)) : ν → ν → Prop := ReflTransGen fun x y => Child kids y x

/-! ## Ending -/

/-- A queue whose items are followed by finitely many is emptied, or ends at a failure. -/
theorem drain_of_preordered {out : List ν} (hp : Preordered (fun x => (kids x).getD []) queue out) :
    ∃ r, drain kids (out.length + 1) queue = some r := by
  induction hn : out.length generalizing queue out with
  | zero =>
    obtain rfl : out = [] := length_eq_zero_iff.mp hn
    cases hp
    exact ⟨true, rfl⟩
  | succ n ih =>
    cases hp with
    | nil => cases hn
    | @cons x queue below after hbelow hafter =>
      unfold drain
      cases hk : kids x with
      | none => exact ⟨false, rfl⟩
      | some l =>
        rw [hk] at hbelow
        refine ih (hafter.append hbelow) ?_
        simp only [length_cons, length_append] at hn ⊢
        omega

theorem acc_getD (h : Acc (Child kids) x) : Acc (fun m n => m ∈ (kids n).getD []) x := by
  induction h with
  | intro x _ ih =>
    refine Acc.intro x fun y hy => ih y ?_
    cases hk : kids x with
    | none => simp [hk] at hy
    | some l => exact ⟨l, hk, by simpa [hk] using hy⟩

theorem drain_of_acc (hacc : ∀ x ∈ queue, Acc (Child kids) x) : ∃ fuel r, drain kids fuel queue = some r := by
  obtain ⟨out, hp⟩ := Preordered.exists_of_acc fun x hx => acc_getD (hacc x hx)
  obtain ⟨r, hr⟩ := drain_of_preordered hp
  exact ⟨_, r, hr⟩

/-- A queue that holds an item from which a failure is reached ends: the item, and after it one a step closer to the failure,
comes to the front. -/
theorem drain_of_fail (hx : x ∈ queue) (hreach : Reaches kids x y) (hfail : kids y = none) :
    ∃ fuel r, drain kids fuel queue = some r := by
  induction hreach using ReflTransGen.head_induction_on generalizing queue with
  | refl =>
    obtain ⟨pre, post, rfl⟩ := append_of_mem hx
    induction pre generalizing post with
    | nil => exact ⟨1, false, by simp [drain, hfail]⟩
    | cons z pre ih =>
      cases hk : kids z with
      | none => exact ⟨1, false, by simp [drain, hk]⟩
      | some l =>
        obtain ⟨fuel, r, hr⟩ := ih (post ++ l) (by simp)
        exact ⟨fuel + 1, r, by simpa [drain, hk] using hr⟩
  | @head x z hstep hrest ih =>
    obtain ⟨l, hkids, hz⟩ := hstep
    obtain ⟨pre, post, rfl⟩ := append_of_mem hx
    clear hx
    induction pre generalizing post with
    | nil =>
      have hnext : z ∈ post ++ l := mem_append_right post hz
      obtain ⟨fuel, r, hr⟩ := ih hnext
      exact ⟨fuel + 1, r, by simpa [drain, hkids] using hr⟩
    | cons w pre ih' =>
      cases hk : kids w with
      | none => exact ⟨1, false, by simp [drain, hk]⟩
      | some k =>
        obtain ⟨fuel, r, hr⟩ := ih' (post ++ k)
        exact ⟨fuel + 1, r, by simpa [drain, hk] using hr⟩

/-- A queue that holds an item that is led away from for ever is never emptied, when no failure is reached. -/
theorem drain_eq_none (hx : x ∈ queue) (hacc : ¬ Acc (Child kids) x)
    (hkids : ∀ x ∈ queue, ∀ y, Reaches kids x y → kids y ≠ none) (fuel : Nat) : drain kids fuel queue = none := by
  induction fuel generalizing queue x with
  | zero => rfl
  | succ fuel ih =>
    cases queue with
    | nil => cases hx
    | cons z queue =>
      unfold drain
      cases hk : kids z with
      | none => exact absurd hk (hkids z mem_cons_self z .refl)
      | some l =>
        have hrest : ∀ x ∈ queue ++ l, ∀ y, Reaches kids x y → kids y ≠ none := by
          intro x hx y hy
          rcases mem_append.mp hx with hx | hx
          · exact hkids x (mem_cons_of_mem z hx) y hy
          · exact hkids z mem_cons_self y (.head ⟨l, hk, hx⟩ hy)
        rcases mem_cons.mp hx with rfl | hx
        · -- one of its children is led away from for ever as well
          obtain ⟨w, hw, hwacc⟩ : ∃ w ∈ l, ¬ Acc (Child kids) w := by
            by_contra hnone
            refine hacc (Acc.intro x fun w hw => ?_)
            obtain ⟨l', hl', hw⟩ := hw
            obtain rfl : l = l' := Option.some.inj (hk.symm.trans hl')
            by_contra hwacc
            exact hnone ⟨w, hw, hwacc⟩
          exact ih (mem_append_right queue hw) hwacc hrest
        · exact ih (mem_append_left l hx) hacc hrest

/-- The loop ends exactly when a failure is reached, or nothing leads on for ever. -/
theorem drain_returns_iff : (∃ fuel r, drain kids fuel queue = some r) ↔
    (∃ x ∈ queue, ∃ y, Reaches kids x y ∧ kids y = none) ∨ ∀ x ∈ queue, Acc (Child kids) x := by
  constructor
  · rintro ⟨fuel, r, hr⟩
    by_contra hno
    rw [not_or] at hno
    obtain ⟨hkids, hacc⟩ := hno
    obtain ⟨x, hx, hxacc⟩ : ∃ x ∈ queue, ¬ Acc (Child kids) x := by
      by_contra hall
      exact hacc fun x hx => by
        by_contra hxacc
        exact hall ⟨x, hx, hxacc⟩
    rw [drain_eq_none hx hxacc fun x hx y hy hk => hkids ⟨x, hx, y, hy, hk⟩] at hr
    cases hr
  · rintro (⟨x, hx, y, hreach, hfail⟩ | hacc)
    · exact drain_of_fail hx hreach hfail
    · exact drain_of_acc hacc

/-! ## Ending well -/

/-- Where the loop ends well, no failure is reached and nothing leads on for ever. -/
theorem of_drain_true {fuel : Nat} (h : drain kids fuel queue = some true) :
    ∀ x ∈ queue, Acc (Child kids) x ∧ ∀ y, Reaches kids x y → kids y ≠ none := by
  induction fuel generalizing queue with
  | zero => cases h
  | succ fuel ih =>
    cases queue with
    | nil => simp
    | cons z queue =>
      unfold drain at h
      cases hk : kids z with
      | none => simp [hk] at h
      | some l =>
        rw [hk] at h
        have hall := ih h
        intro x hx
        rcases mem_cons.mp hx with rfl | hx
        · refine ⟨Acc.intro x fun w hw => ?_, fun y hy => ?_⟩
          · obtain ⟨l', hl', hw⟩ := hw
            obtain rfl : l = l' := Option.some.inj (hk.symm.trans hl')
            exact (hall w (mem_append_right queue hw)).1
          · rcases hy.cases_head with rfl | ⟨w, ⟨l', hl', hw⟩, hy⟩
            · simp [hk]
            · obtain rfl : l = l' := Option.some.inj (hk.symm.trans hl')
              exact (hall w (mem_append_right queue hw)).2 y hy
        · exact hall x (mem_append_left l hx)

/-- Where the loop ends with failure, one is reached. -/
theorem of_drain_false {fuel : Nat} (h : drain kids fuel queue = some false) :
    ∃ x ∈ queue, ∃ y, Reaches kids x y ∧ kids y = none := by
  induction fuel generalizing queue with
  | zero => cases h
  | succ fuel ih =>
    cases queue with
    | nil => cases h
    | cons z queue =>
      unfold drain at h
      cases hk : kids z with
      | none => exact ⟨z, mem_cons_self, z, .refl, hk⟩
      | some l =>
        rw [hk] at h
        obtain ⟨x, hx, y, hy, hfail⟩ := ih h
        rcases mem_append.mp hx with hx | hx
        · exact ⟨x, mem_cons_of_mem z hx, y, hy, hfail⟩
        · exact ⟨z, mem_cons_self, y, .head ⟨l, hk, hx⟩ hy, hfail⟩

/-- An item that nothing leads away from for ever is not reached from itself by a step or more. -/
theorem not_reaches_self (hacc : Acc (Child kids) x) : ¬ TransGen (fun x y => Child kids y x) x x := by
  induction hacc with
  | intro x _ ih =>
    intro hcycle
    obtain ⟨y, hy, hback⟩ := TransGen.head'_iff.mp hcycle
    exact ih y hy (TransGen.tail' hback hy)

/-- Where the items led to are of a list and none reached is reached again from itself, nothing leads on for ever. -/
theorem acc_of_no_cycle (items : List ν) (hitems : ∀ y x, Child kids y x → y ∈ items)
    (hno : ∀ y, Reaches kids x y → ¬ TransGen (fun x y => Child kids y x) y y) : Acc (Child kids) x := by
  have hreached := Preordered.acc_of_acyclic (r := fun m n => Reaches kids x m ∧ Child kids n m) items
    (fun m n hmn => hitems n m hmn.2) (fun n hn => by
      obtain ⟨m, hstep, -⟩ := TransGen.head'_iff.mp hn
      exact hno n hstep.1 (TransGen.mono (fun _ _ h => h.2) _ _ hn)) x
  have hbelow : ∀ y, Acc (fun n m => Reaches kids x m ∧ Child kids n m) y → Reaches kids x y → Acc (Child kids) y := by
    intro y hy
    induction hy with
    | intro y _ ih => exact fun hr => Acc.intro y fun z hz => ih z ⟨hr, hz⟩ (hr.tail hz)
  exact hbelow x hreached .refl

/-- Nothing leads on for ever exactly when no item reached is reached again from itself. -/
theorem acc_iff_no_cycle (items : List ν) (hitems : ∀ y x, Child kids y x → y ∈ items) :
    Acc (Child kids) x ↔ ∀ y, Reaches kids x y → ¬ TransGen (fun x y => Child kids y x) y y := by
  refine ⟨fun hacc y hy => ?_, acc_of_no_cycle items hitems⟩
  have hy' : Acc (Child kids) y := by
    induction hy with
    | refl => exact hacc
    | tail _ hstep ih => exact ih.inv hstep
  exact not_reaches_self hy'

/-- The loop ends well for some bound exactly when no failure is reached and nothing leads on for ever. -/
theorem drain_true_iff : (∃ fuel, drain kids fuel queue = some true) ↔
    ∀ x ∈ queue, Acc (Child kids) x ∧ ∀ y, Reaches kids x y → kids y ≠ none := by
  refine ⟨fun ⟨_, h⟩ => of_drain_true h, fun hall => ?_⟩
  obtain ⟨fuel, r, hr⟩ := drain_of_acc fun x hx => (hall x hx).1
  cases r with
  | true => exact ⟨fuel, hr⟩
  | false =>
    obtain ⟨x, hx, y, hy, hfail⟩ := of_drain_false hr
    exact absurd hfail ((hall x hx).2 y hy)

/-! ## Two worklists alike -/

section
variable {μ : Type} {kids' : μ → Option (List μ)} {sim : ν → μ → Prop}

/-- Worklists whose items lead to items alike end alike. -/
theorem drain_sim (hsim : ∀ x x', sim x x' → Option.Rel (List.Forall₂ sim) (kids x) (kids' x')) (fuel : Nat) :
    ∀ {queue queue'}, List.Forall₂ sim queue queue' → drain kids fuel queue = drain kids' fuel queue' := by
  induction fuel with
  | zero => exact fun _ => rfl
  | succ fuel ih =>
    intro queue queue' hq
    cases hq with
    | nil => rfl
    | cons hx hq =>
      unfold drain
      have hk := hsim _ _ hx
      revert hk
      generalize kids _ = m
      generalize kids' _ = m'
      rintro (hl | -)
      · exact ih (rel_append hq hl)
      · rfl

/-- What is reached is alike. -/
theorem reaches_sim {x y : ν} {x' : μ} (hsim : ∀ x x', sim x x' → Option.Rel (List.Forall₂ sim) (kids x) (kids' x'))
    (hx : sim x x') (hr : Reaches kids x y) : ∃ y', sim y y' ∧ Reaches kids' x' y' := by
  induction hr with
  | refl => exact ⟨x', hx, .refl⟩
  | @tail y z _ hstep ih =>
    obtain ⟨y', hy, hr'⟩ := ih
    obtain ⟨l, hl, hz⟩ := hstep
    have hk := hsim y y' hy
    rw [hl] at hk
    cases hk' : kids' y' with
    | none =>
      rw [hk'] at hk
      cases hk
    | some l' =>
      rw [hk'] at hk
      cases hk with
      | some hll =>
        obtain ⟨i, hi⟩ := getElem?_of_mem hz
        obtain ⟨hlt, hzi⟩ := List.getElem?_eq_some_iff.mp hi
        have hlt' : i < l'.length := hll.length_eq ▸ hlt
        exact ⟨l'[i], by rw [← hzi]; exact hll.get hlt hlt', hr'.tail ⟨l', hk', getElem_mem hlt'⟩⟩

end

end Worklist

end Metadef
