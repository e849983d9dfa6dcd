import Mathlib.Logic.Relation

/-!
# Contracting a vertex

A vertex is taken out of a graph without cycles: the edges away from it stay, and new edges lead from vertices before it
to vertices behind it only. The file says when the vertices left reach one another as before.
-/

namespace Metadef

namespace Contract

open Relation

variable {V : Type} {E E' : V → V → Prop} {n : V}

/-- A relation that is what is left of another around a vertex: its edges are among the vertices left, and are old edges
or lead past the vertex. -/
structure Around (E E' : V → V → Prop) (n : V) : Prop where
  source : ∀ u v, E' u v → u ≠ n
  target : ∀ u v, E' u v → v ≠ n
  old : ∀ u v, u ≠ n → v ≠ n → E u v → E' u v
  path : ∀ u v, E' u v → E u v ∨ (E u n ∧ E n v)

/-- A path between vertices left keeps away from a vertex, or leads through it. -/
theorem past_or_through (hold : ∀ u v, u ≠ n → v ≠ n → E u v → E' u v) {a b : V} (ha : a ≠ n) (hab : TransGen E a b) :
    b ≠ n → TransGen E' a b ∨ (TransGen E a n ∧ TransGen E n b) := by
  induction hab with
  | single hab => exact fun hb => .inl (.single (hold _ _ ha hb hab))
  | @tail c b hac hcb ih =>
    intro hb
    by_cases hc : c = n
    · subst hc
      exact .inr ⟨hac, .single hcb⟩
    · rcases ih hc with hpast | ⟨han, hnc⟩
      · exact .inl (hpast.tail (hold c b hc hb hcb))
      · exact .inr ⟨han, hnc.tail hcb⟩

/-- What is reached afterwards was reached before. -/
theorem Around.transGen (h : Around E E' n) {a b : V} (hab : TransGen E' a b) : TransGen E a b := by
  induction hab with
  | single hab =>
    rcases h.path _ _ hab with hab | ⟨han, hnb⟩
    · exact .single hab
    · exact .tail (.single han) hnb
  | tail _ hbc ih =>
    rcases h.path _ _ hbc with hbc | ⟨hbn, hnc⟩
    · exact .tail ih hbc
    · exact .tail (.tail ih hbn) hnc

/-- Without cycles before there are none afterwards. -/
theorem Around.acyclic (h : Around E E' n) (hacyclic : ∀ a, ¬ TransGen E a a) : ∀ a, ¬ TransGen E' a a :=
  fun a ha => hacyclic a (h.transGen ha)

/-- Where the vertices behind the vertex are reached from those before it, all is reached that was reached. -/
theorem Around.transGen_of (h : Around E E' n) (hloop : ¬ E n n) (hpast : ∀ a b, E a n → E n b → TransGen E' a b)
    {a b : V} (ha : a ≠ n) (hb : b ≠ n) (hab : TransGen E a b) : TransGen E' a b := by
  -- along the path, a vertex is left or it is the one taken out, and then its predecessors stand in for it
  have hpath : ∀ c, TransGen E c b → (c ≠ n → TransGen E' c b) ∧ (c = n → ∀ d, E d n → TransGen E' d b) := by
    intro c hc
    induction hc using TransGen.head_induction_on with
    | @single c hcb =>
      refine ⟨fun hc => .single (h.old c b hc hb hcb), ?_⟩
      rintro rfl d hd
      exact hpast d b hd hcb
    | @head c e hce _ ih =>
      by_cases he : e = n
      · subst he
        refine ⟨fun _ => ih.2 rfl c hce, ?_⟩
        rintro rfl
        exact absurd hce hloop
      · refine ⟨fun hc => .head (h.old c e hc he hce) (ih.1 he), ?_⟩
        rintro rfl d hd
        exact (hpast d e hd hce).trans (ih.1 he)
  exact (hpath a hab).1 ha

/-- Where the vertices behind the vertex are reached from those before it, there are no cycles before when there are none
afterwards. -/
theorem Around.acyclic_of (h : Around E E' n) (hloop : ¬ E n n) (hpast : ∀ a b, E a n → E n b → TransGen E' a b)
    (hacyclic : ∀ a, ¬ TransGen E' a a) : ∀ a, ¬ TransGen E a a := by
  have hothers : ∀ a, a ≠ n → ¬ TransGen E a a := fun a ha haa => hacyclic a (h.transGen_of hloop hpast ha ha haa)
  intro a haa
  by_cases ha : a = n
  · subst ha
    obtain ⟨c, hac, hca⟩ := TransGen.head'_iff.mp haa
    have hc : c ≠ a := by
      rintro rfl
      exact hloop hac
    exact hothers c hc (TransGen.tail' hca hac)
  · exact hothers a ha haa

/-- The vertices left reach one another as before exactly when those behind the vertex are reached from those before. -/
theorem Around.iff (h : Around E E' n) (hloop : ¬ E n n) :
    (∀ a b, a ≠ n → b ≠ n → (TransGen E' a b ↔ TransGen E a b)) ↔ ∀ a b, E a n → E n b → TransGen E' a b := by
  constructor
  · intro hsame a b han hnb
    have ha : a ≠ n := by
      rintro rfl
      exact hloop han
    have hb : b ≠ n := by
      rintro rfl
      exact hloop hnb
    exact (hsame a b ha hb).mpr (.tail (.single han) hnb)
  · intro hpast a b ha hb
    exact ⟨h.transGen, h.transGen_of hloop hpast ha hb⟩

end Contract

end Metadef
