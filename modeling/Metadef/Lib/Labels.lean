import Mathlib.Logic.Relation

/-! # Labels of classes

Labels that tell the classes of the items: two have one label exactly when pairs that were joined lead from one to the other. -/

namespace Metadef

open List Relation

namespace Labels

variable {κ σ : Type}

/-- Some of the pairs lead from one item to the other. -/
abbrev Joined (l : List (κ × κ)) : κ → κ → Prop := EqvGen fun a b => (a, b) ∈ l

/-- The labels are those of the classes that the pairs make. -/
structure Tells (label : κ → Option σ) (l : List (κ × κ)) : Prop where
  sound : ∀ {a b}, (a, b) ∈ l → ∃ s, label a = some s ∧ label b = some s
  complete : ∀ {a b s}, label a = some s → label b = some s → Joined l a b

variable {label label' : κ → Option σ} {l : List (κ × κ)} {a b x y : κ} {s u v : σ}

/-- Items that are joined have one label. -/
theorem Tells.same (h : Tells label l) (hab : Joined l a b) : label a = label b := by
  induction hab with
  | rel a b hab =>
    obtain ⟨s, ha, hb⟩ := h.sound hab
    exact ha.trans hb.symm
  | refl a => rfl
  | symm a b _ ih => exact ih.symm
  | trans a b c _ _ ih ih' => exact ih.trans ih'

variable [DecidableEq κ]

/-- A new item enters with a label that no other has. -/
theorem Tells.enter (h : Tells label l) (hx : label x = none) (hs : ∀ a, label a ≠ some s)
    (hl : ∀ a, label' a = if a = x then some s else label a) : Tells label' l where
  sound {a b} hab := by
    obtain ⟨w, ha, hb⟩ := h.sound hab
    exact ⟨w, by grind⟩
  complete {a b w} ha hb := by
    rw [hl] at ha hb
    by_cases hax : a = x
    · obtain rfl : a = b := by grind
      exact .refl a
    · exact h.complete (s := w) (by grind) (by grind)

variable [DecidableEq σ]

omit [DecidableEq κ] in
/-- The classes of two items are joined. -/
theorem Tells.unite (h : Tells label l) (hx : label x = some s) (hy : label y = some u) (hv : v = s ∨ v = u)
    (hl : ∀ a, label' a = if label a = some s ∨ label a = some u then some v else label a) : Tells label' ((x, y) :: l) := by
  have hold : ∀ {a b w}, label a = some w → label b = some w → Joined ((x, y) :: l) a b := fun ha hb =>
    EqvGen.mono (fun _ _ => mem_cons_of_mem _) _ _ (h.complete ha hb)
  have hto : ∀ {a}, label' a = some v → Joined ((x, y) :: l) a y := by
    intro a ha
    have hclass : label a = some s ∨ label a = some u := by grind
    rcases hclass with ha | ha
    · exact .trans _ x _ (hold ha hx) (.rel _ _ mem_cons_self)
    · exact hold ha hy
  refine ⟨fun {a b} hab => ?_, fun {a b w} ha hb => ?_⟩
  · rcases mem_cons.mp hab with heq | hab
    · obtain ⟨rfl, rfl⟩ := Prod.mk.inj heq
      exact ⟨v, by simp [hl, hx], by simp [hl, hy]⟩
    · obtain ⟨w, ha, hb⟩ := h.sound hab
      by_cases hw : w = s ∨ w = u
      · exact ⟨v, by grind⟩
      · exact ⟨w, by grind⟩
  · by_cases hwv : w = v
    · rw [hwv] at ha hb
      exact .trans _ y _ (hto ha) (.symm _ _ (hto hb))
    · exact hold (w := w) (by grind) (by grind)

/-- A new item is joined to one that has a label, and gets it. -/
theorem Tells.join (h : Tells label l) (hx : label x = none) (hs : ∀ a, label a ≠ some s) (hy : label y = some u)
    (hl : ∀ a, label' a = if a = x then some u else label a) : Tells label' ((x, y) :: l) := by
  have henter : Tells (fun a => if a = x then some s else label a) l := h.enter hx hs fun _ => rfl
  exact henter.unite (s := s) (u := u) (if_pos rfl) (by grind) (.inr rfl) fun a => by grind

end Labels

end Metadef
