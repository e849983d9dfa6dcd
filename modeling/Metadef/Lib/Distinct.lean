import Mathlib.Data.List.TakeWhile
import Mathlib.Data.Finset.Card

/-!
# The distinct names of a list

The longest beginning of a list without repeats, and the number of distinct items of a list, under appending.
-/

namespace Metadef

open List Finset

namespace Distinct

variable {α : Type} [DecidableEq α]

/-- The longest beginning of a list in which no item repeats. -/
def distinctPrefix : List α → List α
  | [] => []
  | a :: l => a :: (distinctPrefix l).takeWhile (· ≠ a)

/-- The number of distinct items. -/
def distinctCount (l : List α) : Nat := l.toFinset.card

/-! ## The beginning without repeats -/

theorem distinctPrefix_of_nodup : ∀ {l : List α}, l.Nodup → distinctPrefix l = l
  | [], _ => rfl
  | a :: l, h => by
    obtain ⟨ha, hl⟩ := nodup_cons.mp h
    rw [distinctPrefix, distinctPrefix_of_nodup hl, takeWhile_eq_self_iff.mpr]
    intro b hb
    simpa using fun e : b = a => ha (e ▸ hb)

/-- An item that repeats one before it ends the beginning without repeats. -/
theorem distinctPrefix_concat_of_not_nodup {b : α} :
    ∀ {l : List α}, ¬ (l ++ [b]).Nodup → distinctPrefix (l ++ [b]) = distinctPrefix l := by
  intro l
  induction l with
  | nil => intro h; simp at h
  | cons a l ih =>
    intro h
    simp only [cons_append, distinctPrefix]
    by_cases hn : (l ++ [b]).Nodup
    · have hl : l.Nodup := (nodup_append.mp hn).1
      have ha : a ∈ l ++ [b] := by
        by_contra ha
        exact h (nodup_cons.mpr ⟨ha, hn⟩)
      rw [distinctPrefix_of_nodup hn, distinctPrefix_of_nodup hl]
      by_cases hal : a ∈ l
      · rw [takeWhile_append, if_neg]
        intro hlen
        have hall := takeWhile_eq_self_iff.mp ((List.takeWhile_prefix _).eq_of_length hlen)
        simpa using hall a hal
      · obtain rfl : a = b := by simpa [hal] using ha
        have hall : ∀ x ∈ l, decide (x ≠ a) = true := by
          intro x hx
          simpa using fun e : x = a => hal (e ▸ hx)
        rw [takeWhile_append_of_pos hall, takeWhile_eq_self_iff.mpr hall]
        simp
    · rw [ih hn]

variable {l r : List α} {a : α}

/-- After a repeat nothing is added to the beginning without repeats. -/
theorem distinctPrefix_append_of_not_nodup (h : ¬ l.Nodup) : ∀ r : List α, distinctPrefix (l ++ r) = distinctPrefix l := by
  intro r
  induction r using List.reverseRecOn with
  | nil => simp
  | append_singleton r b ih =>
    rw [← append_assoc, distinctPrefix_concat_of_not_nodup, ih]
    intro hn
    exact h (nodup_append.mp (nodup_append.mp hn).1).1

/-- The beginning without repeats ends before a second copy of the first item. -/
theorem distinctPrefix_append_head (l r : List α) : distinctPrefix (a :: l ++ a :: r) = distinctPrefix (a :: l) := by
  have hrep : ¬ (a :: l ++ [a]).Nodup := by simp
  rw [show a :: l ++ a :: r = (a :: l ++ [a]) ++ r by simp, distinctPrefix_append_of_not_nodup hrep,
    distinctPrefix_concat_of_not_nodup hrep]

theorem nodup_distinctPrefix : ∀ l : List α, (distinctPrefix l).Nodup
  | [] => by simp [distinctPrefix]
  | a :: l => by
    refine nodup_cons.mpr ⟨fun h => ?_, (nodup_distinctPrefix l).sublist (takeWhile_sublist _)⟩
    simpa using mem_takeWhile_imp h

theorem distinctPrefix_subset : ∀ l : List α, distinctPrefix l ⊆ l
  | [] => by simp [distinctPrefix]
  | a :: l => by
    refine cons_subset.mpr ⟨mem_cons_self, fun x hx => mem_cons_of_mem a ?_⟩
    exact distinctPrefix_subset l ((takeWhile_sublist _).subset hx)

/-! ## The number of distinct items -/

theorem distinctCount_of_nodup (h : l.Nodup) : distinctCount l = l.length :=
  toFinset_card_of_nodup h

theorem distinctCount_le (l : List α) : distinctCount l ≤ l.length := toFinset_card_le l

/-- As many distinct items as items: none repeats. -/
theorem nodup_of_distinctCount (h : distinctCount l = l.length) : l.Nodup := by
  have hlen : l.dedup.length = l.length := by rw [← card_toFinset]; exact h
  rw [← (dedup_sublist l).eq_of_length hlen]
  exact nodup_dedup l

/-- Appending items that are all there adds no distinct one. -/
theorem distinctCount_append_of_subset (h : r ⊆ l) : distinctCount (l ++ r) = distinctCount l := by
  have : (l ++ r).toFinset = l.toFinset := by
    ext x
    simp only [mem_toFinset, mem_append]
    exact ⟨fun hx => hx.elim id (fun hr => h hr), .inl⟩
  rw [distinctCount, this, distinctCount]

/-- Appending items of which one value alone is new adds one distinct item. -/
theorem distinctCount_append_of_new (hr : ∀ x ∈ r, x ∈ l ∨ x = a) (ha : a ∈ r) (hl : a ∉ l) :
    distinctCount (l ++ r) = distinctCount l + 1 := by
  have : (l ++ r).toFinset = insert a l.toFinset := by
    ext x
    simp only [mem_toFinset, mem_append, mem_insert]
    constructor
    · rintro (hx | hx)
      · exact .inr hx
      · exact (hr x hx).symm
    · rintro (rfl | hx)
      · exact .inr ha
      · exact .inl hx
  rw [distinctCount, this, card_insert_of_notMem (by simpa using hl), distinctCount]

theorem length_distinctPrefix_le (l : List α) : (distinctPrefix l).length ≤ distinctCount l := by
  rw [← distinctCount_of_nodup (nodup_distinctPrefix l)]
  refine card_le_card fun x hx => ?_
  simpa using distinctPrefix_subset l (by simpa using hx)

end Distinct

end Metadef
