import Mathlib.Data.List.Forall2
import Mathlib.Data.Option.Basic

/-! # Partial functions on lists

What a partial function makes of a list, item by item: nothing as soon as an item has no value, else the values in order. -/

namespace Metadef

open List

namespace PartialMaps

variable {α β γ : Type} {f g : α → Option β} {l : List α}

variable {r l' : List β}

theorem mapM_cons_eq_some {a : α} : (a :: l).mapM f = some r ↔ ∃ b bs, f a = some b ∧ l.mapM f = some bs ∧ r = b :: bs := by
  rw [mapM_cons]
  cases hb : f a with
  | none => simp
  | some b =>
    cases hbs : l.mapM f with
    | none => simp
    | some bs => simp [eq_comm]

/-- The values are those of the items, in order. -/
theorem forall₂_of_mapM (h : l.mapM f = some l') : List.Forall₂ (fun x y => f x = some y) l l' := by
  induction l generalizing l' with
  | nil =>
    obtain rfl : [] = l' := Option.some.inj h
    exact .nil
  | cons x l ih =>
    obtain ⟨z, zs, hz, hzs, rfl⟩ := mapM_cons_eq_some.mp h
    exact .cons hz (ih hzs)

theorem mapM_eq_some_iff : l.mapM f = some r ↔ l.map f = r.map some := by
  induction l generalizing r with
  | nil => cases r <;> simp
  | cons a l ih =>
    rw [mapM_cons_eq_some]
    constructor
    · rintro ⟨b, bs, hb, hbs, rfl⟩
      rw [map_cons, map_cons, hb, ih.mp hbs]
    · intro h
      cases r with
      | nil => cases h
      | cons b bs =>
        rw [map_cons, map_cons, List.cons.injEq] at h
        exact ⟨b, bs, h.1, ih.mpr h.2, rfl⟩

theorem mem_mapM (h : l.mapM f = some l') (y : β) : y ∈ l' ↔ ∃ x ∈ l, f x = some y := by
  have hmap := mapM_eq_some_iff.mp h
  have hmem : some y ∈ l.map f ↔ some y ∈ l'.map some := by rw [hmap]
  simpa using hmem.symm

/-- Every item has a value among them. -/
theorem exists_of_mapM (h : l.mapM f = some l') {x : α} (hx : x ∈ l) : ∃ y ∈ l', f x = some y := by
  have hmem : f x ∈ l.map f := mem_map_of_mem hx
  rw [mapM_eq_some_iff.mp h] at hmem
  obtain ⟨y, hy, heq⟩ := List.mem_map.mp hmem
  exact ⟨y, hy, heq.symm⟩

/-- A list has values when each item has one. -/
theorem exists_mapM (h : ∀ x ∈ l, (f x).isSome) : ∃ r, l.mapM f = some r := by
  induction l with
  | nil => exact ⟨[], rfl⟩
  | cons x l ih =>
    obtain ⟨y, hy⟩ := Option.isSome_iff_exists.mp (h x mem_cons_self)
    obtain ⟨ys, hys⟩ := ih fun x hx => h x (mem_cons_of_mem _ hx)
    exact ⟨y :: ys, mapM_cons_eq_some.mpr ⟨y, ys, hy, hys, rfl⟩⟩

/-- A function that has the values of another on a list makes the same of it. -/
theorem mapM_mono (h : l.mapM f = some r) (hfg : ∀ x ∈ l, ∀ y, f x = some y → g x = some y) : l.mapM g = some r := by
  induction l generalizing r with
  | nil => exact h
  | cons x l ih =>
    obtain ⟨y, ys, hy, hys, rfl⟩ := mapM_cons_eq_some.mp h
    exact mapM_cons_eq_some.mpr ⟨y, ys, hfg x mem_cons_self y hy, ih hys fun x hx => hfg x (mem_cons_of_mem _ hx), rfl⟩

/-- Functions with related values make related lists. -/
theorem mapM_rel {r : β → γ → Prop} {f' : α → Option γ} (hf : ∀ x, Option.Rel r (f x) (f' x)) (l : List α) :
    Option.Rel (List.Forall₂ r) (l.mapM f) (l.mapM f') := by
  induction l with
  | nil => exact .some .nil
  | cons x l ih =>
    rw [mapM_cons, mapM_cons]
    have hx := hf x
    revert hx ih
    generalize f x = y
    generalize f' x = y'
    generalize l.mapM f = ys
    generalize l.mapM f' = ys'
    rintro (hys | -) (hy | -)
    · exact .some (.cons hy hys)
    · exact .none
    · exact .none
    · exact .none

end PartialMaps

end Metadef
