import Mathlib.Logic.Function.Basic

/-! # Writes that some values withstand

A run of writes to places, each with its value. A place whose value is fixed keeps it. What the places hold afterwards is told by the
writes to each: a place that is not written to keeps its value, and another has the value of its last write. -/

namespace Metadef

open List

namespace GuardedWrites

variable {κ β : Type} [DecidableEq κ] (fixed : β → Prop) [DecidablePred fixed]

/-- Writes a value to a place whose value is not fixed. -/
def write (f : κ → β) (e : κ × β) : κ → β := if fixed (f e.1) then f else Function.update f e.1 e.2

/-- Runs writes one after another. -/
def writeAll (f : κ → β) (l : List (κ × β)) : κ → β := l.foldl (write fixed) f

variable {fixed} {f : κ → β} {l : List (κ × β)} {k : κ}

/-! ## One write -/

variable {e : κ × β}

theorem write_of_ne (hk : e.1 ≠ k) : write fixed f e k = f k := by
  unfold write
  split
  · rfl
  · exact Function.update_of_ne hk.symm ..

theorem write_of_fixed (hk : fixed (f k)) : write fixed f e k = f k := by
  by_cases he : e.1 = k
  · rw [write, if_pos (he ▸ hk)]
  · exact write_of_ne he

theorem write_self (hk : ¬fixed (f e.1)) : write fixed f e e.1 = e.2 := by
  rw [write, if_neg hk]
  exact Function.update_self ..

/-- A place that is not fixed stays so when no value written is. -/
theorem not_fixed_write (he : ¬fixed e.2) (hk : ¬fixed (f k)) : ¬fixed (write fixed f e k) := by
  by_cases hek : e.1 = k
  · subst hek
    rwa [write_self hk]
  · rwa [write_of_ne hek]

/-! ## A run -/

@[simp] theorem writeAll_nil : writeAll fixed f [] = f := rfl

@[simp] theorem writeAll_cons (e : κ × β) : writeAll fixed f (e :: l) = writeAll fixed (write fixed f e) l := rfl

theorem writeAll_append (l' : List (κ × β)) : writeAll fixed f (l ++ l') = writeAll fixed (writeAll fixed f l) l' :=
    foldl_append

/-- A place that is not written to keeps its value. -/
theorem writeAll_of_forall_ne (hk : ∀ e ∈ l, e.1 ≠ k) : writeAll fixed f l k = f k := by
  induction l generalizing f with
  | nil => rfl
  | cons e l ih =>
    rw [writeAll_cons, ih fun e' he' => hk e' (mem_cons_of_mem e he')]
    exact write_of_ne (hk e mem_cons_self)

/-- A fixed place keeps its value. -/
theorem writeAll_of_fixed (hk : fixed (f k)) : writeAll fixed f l k = f k := by
  induction l generalizing f with
  | nil => rfl
  | cons e l ih =>
    have hwrite : write fixed f e k = f k := write_of_fixed hk
    rw [writeAll_cons, ih (hwrite.symm ▸ hk), hwrite]

theorem not_fixed_writeAll (hl : ∀ e ∈ l, ¬fixed e.2) (hk : ¬fixed (f k)) : ¬fixed (writeAll fixed f l k) := by
  induction l generalizing f with
  | nil => exact hk
  | cons e l ih =>
    exact ih (fun e' he' => hl e' (mem_cons_of_mem e he')) (not_fixed_write (hl e mem_cons_self) hk)

/-- A place that is not fixed has the value of its last write. -/
theorem writeAll_of_last {before after : List (κ × β)} (hl : ∀ e ∈ before, ¬fixed e.2) (hk : ¬fixed (f e.1))
    (hlast : ∀ e' ∈ after, e'.1 ≠ e.1) : writeAll fixed f (before ++ e :: after) e.1 = e.2 := by
  rw [writeAll_append, writeAll_cons, writeAll_of_forall_ne hlast]
  exact write_self (not_fixed_writeAll hl hk)

omit [DecidableEq κ] in
/-- A place that is written to is written to a last time. -/
theorem exists_last (hk : ∃ e ∈ l, e.1 = k) : ∃ before e after, l = before ++ e :: after ∧ e.1 = k ∧ ∀ e' ∈ after, e'.1 ≠ k := by
  induction l with
  | nil =>
    obtain ⟨e, he, -⟩ := hk
    cases he
  | cons e l ih =>
    by_cases hrest : ∃ e' ∈ l, e'.1 = k
    · obtain ⟨before, e', after, rfl, he', hafter⟩ := ih hrest
      exact ⟨e :: before, e', after, rfl, he', hafter⟩
    · obtain ⟨e', he', hk'⟩ := hk
      rcases mem_cons.mp he' with rfl | he'
      · exact ⟨[], e', l, rfl, hk', fun e hel hek => hrest ⟨e, hel, hek⟩⟩
      · exact absurd ⟨e', he', hk'⟩ hrest

/-- All writes are there afterwards exactly when those to one place write one value. -/
theorem forall_writeAll_iff (hf : ∀ e ∈ l, ¬fixed (f e.1)) (hl : ∀ e ∈ l, ¬fixed e.2) :
    (∀ e ∈ l, writeAll fixed f l e.1 = e.2) ↔ ∀ e ∈ l, ∀ e' ∈ l, e.1 = e'.1 → e.2 = e'.2 := by
  constructor
  · intro hall e he e' he' hk
    rw [← hall e he, ← hall e' he', hk]
  · intro hone e he
    obtain ⟨before, e', after, hsplit, hk, hafter⟩ := exists_last ⟨e, he, rfl⟩
    have he' : e' ∈ l := hsplit ▸ mem_append_right _ mem_cons_self
    have hlast : writeAll fixed f l e'.1 = e'.2 := by
      rw [hsplit]
      exact writeAll_of_last (fun d hd => hl d (hsplit ▸ mem_append_left _ hd)) (hf e' he') fun d hd => hk ▸ hafter d hd
    rw [← hk, hlast]
    exact hone e' he' e he hk

end GuardedWrites

end Metadef
