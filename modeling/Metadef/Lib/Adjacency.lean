import Mathlib.Algebra.BigOperators.Group.Finset.Piecewise
import Mathlib.Algebra.BigOperators.Group.Finset.Sigma
import Mathlib.Algebra.GroupWithZero.Nat

/-!
# Mutual adjacency lists

Each vertex lists its neighbours, with repeats. The lists are mutual when each vertex occurs in the list of another as
often as the other occurs in its own. This file gives the edits that keep lists mutual: joining two vertices, cutting one
occurrence on both sides, and moving the two ends of one occurrence to new vertices.
-/

namespace Metadef

open List Function

namespace Adjacency

variable {α : Type} [DecidableEq α]

/-- Each vertex occurs in the list of another as often as the other in its own. -/
def Mutual (p : α → List α) : Prop := ∀ a b, (p a).count b = (p b).count a

/-- One for the pair named, zero for every other. -/
def one (a b x y : α) : Nat := if x = a ∧ y = b then 1 else 0

/-- Appends an item to the list of a vertex. -/
def push (p : α → List α) (a b : α) : α → List α := Function.update p a (p a ++ [b])

/-- Erases the item at a position of the list of a vertex. -/
def cut (p : α → List α) (a : α) (i : Nat) : α → List α := Function.update p a ((p a).eraseIdx i)

/-- Overwrites the item at a position of the list of a vertex. -/
def put (p : α → List α) (a : α) (i : Nat) (b : α) : α → List α := Function.update p a ((p a).set i b)

variable {p : α → List α} {a b x y : α} {i j : Nat}

theorem mem_push : y ∈ push p a b x ↔ y ∈ p x ∨ (x = a ∧ y = b) := by
  simp only [push, update_apply]
  by_cases hx : x = a
  · subst hx
    simp
  · simp [hx]

theorem mem_of_mem_cut (h : y ∈ cut p a i x) : y ∈ p x := by
  simp only [cut, update_apply] at h
  split at h
  · rename_i hx
    exact hx ▸ (eraseIdx_sublist (p a) i).subset h
  · exact h

theorem mem_of_mem_put (h : y ∈ put p a i b x) : y ∈ p x ∨ y = b := by
  simp only [put, update_apply] at h
  split at h
  · rename_i hx
    exact hx ▸ mem_or_eq_of_mem_set h
  · exact .inl h

theorem count_push (p : α → List α) (a b x y : α) : (push p a b x).count y = (p x).count y + one a b x y := by
  simp only [push, one, update_apply]
  by_cases hx : x = a
  · subst hx
    simp only [if_true, count_append, count_singleton, true_and, beq_iff_eq, eq_comm (a := y)]
  · simp [hx]

theorem count_cut (h : (p a)[i]? = some b) (x y : α) : (cut p a i x).count y + one a b x y = (p x).count y := by
  simp only [cut, one, update_apply]
  by_cases hx : x = a
  · subst hx
    obtain ⟨hi, rfl⟩ := List.getElem?_eq_some_iff.mp h
    have hperm := getElem_cons_eraseIdx_perm hi
    have hcount := hperm.count_eq y
    rw [count_cons] at hcount
    simpa only [if_true, true_and, beq_iff_eq, eq_comm (a := y)] using hcount
  · simp [hx]

theorem count_put (h : (p a)[i]? = some b) (c x y : α) : (put p a i c x).count y + one a b x y = (p x).count y + one a c x y := by
  simp only [put, one, update_apply]
  by_cases hx : x = a
  · subst hx
    obtain ⟨hi, rfl⟩ := List.getElem?_eq_some_iff.mp h
    have hpos : (p x)[i] = y → 0 < (p x).count y := fun e => count_pos_iff.mpr (e ▸ getElem_mem hi)
    simp only [if_true, count_set hi, beq_iff_eq, true_and, eq_comm (a := y)]
    split
    · rename_i he
      have := hpos he
      omega
    · omega
  · simp [hx]

theorem length_push (p : α → List α) (a b x : α) : (push p a b x).length = (p x).length + if x = a then 1 else 0 := by
  simp only [push, update_apply]
  by_cases hx : x = a
  · subst hx
    simp
  · simp [hx]

theorem length_put (p : α → List α) (a : α) (i : Nat) (b x : α) : (put p a i b x).length = (p x).length := by
  simp only [put, update_apply]
  by_cases hx : x = a
  · subst hx
    simp
  · simp [hx]

/-- The two ways to name a pair of ends. -/
theorem one_swap (a b x y : α) : one a b x y = one b a y x := by
  simp only [one, and_comm]

/-- Joining two vertices keeps lists mutual. -/
theorem Mutual.join (h : Mutual p) (a b : α) : Mutual (push (push p a b) b a) := by
  intro x y
  simp only [count_push]
  rw [h x y, one_swap a b y x, one_swap b a y x]
  omega

/-- Cutting an occurrence of each of two vertices from the list of the other keeps lists mutual. -/
theorem Mutual.part (h : Mutual p) (hab : a ≠ b) (hi : (p a)[i]? = some b)
    (hj : (p b)[j]? = some a) : Mutual (cut (cut p a i) b j) := by
  intro x y
  have hj' : (cut p a i b)[j]? = some a := by simpa [cut, update_of_ne hab.symm] using hj
  have h1 := count_cut hj' x y
  have h2 := count_cut hi x y
  have h3 := count_cut hj' y x
  have h4 := count_cut hi y x
  rw [one_swap b a y x] at h3
  rw [one_swap a b y x] at h4
  have := h x y
  omega

/-- Moving the ends of an occurrence between two vertices, one to a first new end and one to a second, keeps lists
mutual. -/
theorem Mutual.move (h : Mutual p) {c d : α} (hab : a ≠ b) (hcb : c ≠ b) (hi : (p a)[i]? = some b) (hj : (p b)[j]? = some a) :
    Mutual (push (put (push (put p a i c) c a) b j d) d b) := by
  intro x y
  have hj' : (push (put p a i c) c a b)[j]? = some a := by
    simpa [push, put, update_of_ne hab.symm, update_of_ne hcb.symm] using hj
  have h1 := count_put hj' d x y
  have h2 := count_put hj' d y x
  have h3 := count_put hi c x y
  have h4 := count_put hi c y x
  rw [count_push] at h1 h2
  rw [count_push, count_push]
  rw [one_swap b a y x, one_swap b d y x, one_swap c a y x] at h2
  rw [one_swap a b y x, one_swap a c y x] at h4
  rw [one_swap d b y x]
  have := h x y
  omega

/-- No vertex lists one it is not listed by. -/
theorem Mutual.mem (h : Mutual p) (hb : b ∈ p a) : a ∈ p b := by
  rw [← count_pos_iff] at hb ⊢
  rw [← h a b]
  exact hb

end Adjacency

/-!
## Counting links from either end

Where adjacency lists are mutual, the links between two lists of vertices can be counted from the vertices of the first
or from those of the second. So can the pairs of a relation between two lists.
-/

namespace Adjacency

variable {α : Type} [DecidableEq α]

/-- The items of a list that meet a condition, counted value by value. -/
theorem countP_eq_sum_count (l : List α) {S : Finset α} {q : α → Bool} (h : ∀ x ∈ l, q x = true → x ∈ S) :
    l.countP q = S.sum fun x => if q x then l.count x else 0 := by
  induction l with
  | nil => simp
  | cons x l ih =>
    have ih := ih fun y hy => h y (mem_cons_of_mem x hy)
    have hsplit : ∀ y, (if q y = true then (x :: l).count y else 0) =
        (if q y = true then l.count y else 0) + if x = y then (if q x = true then 1 else 0) else 0 := by
      intro y
      rw [count_cons]
      by_cases hxy : x = y
      · subst hxy
        cases q x <;> simp
      · simp [hxy]
    have hone : (S.sum fun y => if x = y then (if q x = true then 1 else 0) else 0) = if q x = true then 1 else 0 := by
      rw [Finset.sum_ite_eq]
      cases hq : q x with
      | false => simp
      | true => simp [h x mem_cons_self hq]
    calc (x :: l).countP q = l.countP q + if q x = true then 1 else 0 := countP_cons
      _ = S.sum fun y => if q y = true then (x :: l).count y else 0 := by
        simp only [hsplit, Finset.sum_add_distrib, hone, ih]

omit [DecidableEq α] in
/-- Where each item of one list meets one of the other at most, the pairs are counted on one side. -/
theorem sum_countP {β : Type} (D : List β) (l : List α) (p : α → Bool) (q : α → β → Bool) (r : α → Bool)
    (h : ∀ a ∈ l, D.countP (q a) = if r a then 1 else 0) :
    (D.map fun d => l.countP fun a => p a && q a d).sum = l.countP fun a => p a && r a := by
  induction l with
  | nil => simp
  | cons a l ih =>
    have hone : (D.map fun d => if (p a && q a d) = true then 1 else 0).sum = if (p a && r a) = true then 1 else 0 := by
      cases hp : p a with
      | false => simp
      | true =>
        have hcount : (D.map fun d => if q a d = true then 1 else 0).sum = D.countP (q a) := by
          clear h ih
          induction D with
          | nil => rfl
          | cons d D ih => rw [map_cons, sum_cons, ih, countP_cons, Nat.add_comm]
        simpa [h a mem_cons_self] using hcount
    simp only [countP_cons, sum_map_add, hone, ih fun b hb => h b (mem_cons_of_mem a hb)]

variable {p : α → List α} {A B : List α}

/-- The links that meet a condition, counted at their first and at their second ends. -/
theorem Mutual.sum_countP (hm : Mutual p) (hA : A.Nodup) (hB : B.Nodup)
    (r : α → α → Bool) (hBA : ∀ b ∈ B, ∀ a ∈ p b, r a b = true → a ∈ A)
    (hAB : ∀ a ∈ A, ∀ b ∈ p a, r a b = true → b ∈ B) :
    (A.map fun a => (p a).countP (r a)).sum = (B.map fun b => (p b).countP (r · b)).sum := by
  rw [← sum_toFinset _ hA, ← sum_toFinset _ hB]
  calc (A.toFinset.sum fun a => (p a).countP (r a))
      = A.toFinset.sum fun a => B.toFinset.sum fun b => if r a b = true then (p a).count b else 0 := by
        refine Finset.sum_congr rfl fun a ha => countP_eq_sum_count _ fun b hb hr => ?_
        exact mem_toFinset.mpr (hAB a (mem_toFinset.mp ha) b hb hr)
    _ = B.toFinset.sum fun b => A.toFinset.sum fun a => if r a b = true then (p b).count a else 0 := by
        rw [Finset.sum_comm]
        refine Finset.sum_congr rfl fun b _ => Finset.sum_congr rfl fun a _ => ?_
        rw [hm a b]
    _ = B.toFinset.sum fun b => (p b).countP (r · b) := by
        refine Finset.sum_congr rfl fun b hb => (countP_eq_sum_count _ fun a ha hr => ?_).symm
        exact mem_toFinset.mpr (hBA b (mem_toFinset.mp hb) a ha hr)

/-- The links from distinct vertices, counted. -/
theorem count_pairs (p : α → List α) (hA : A.Nodup) (x y : α) :
    (A.flatMap fun a => (p a).map fun b => (a, b)).count (x, y) = if x ∈ A then (p x).count y else 0 := by
  induction A with
  | nil => rfl
  | cons a A ih =>
    obtain ⟨hnot, hA⟩ := nodup_cons.mp hA
    rw [flatMap_cons, count_append, ih hA]
    by_cases hx : x = a
    · subst hx
      have hinj : Function.Injective fun b : α => (x, b) := fun b c hbc => (Prod.mk.inj hbc).2
      rw [count_map_of_injective _ _ hinj, if_neg hnot, if_pos mem_cons_self, Nat.add_zero]
    · have hnone : ((p a).map fun b => (a, b)).count (x, y) = 0 := by
        refine count_eq_zero.mpr fun hmem => ?_
        obtain ⟨b, -, hb⟩ := List.mem_map.mp hmem
        exact hx (Prod.mk.inj hb).1.symm
      rw [hnone, Nat.zero_add]
      simp [hx]

/-- The links between two lists of vertices, listed from their first and from their second ends. -/
theorem Mutual.pairs_perm (hm : Mutual p) (hA : A.Nodup) (hB : B.Nodup)
    (hAB : ∀ a ∈ A, ∀ b ∈ p a, b ∈ B) (hBA : ∀ b ∈ B, ∀ a ∈ p b, a ∈ A) :
    (A.flatMap fun a => (p a).map fun b => (a, b)).Perm (B.flatMap fun b => (p b).map fun a => (a, b)) := by
  have hswap : (B.flatMap fun b => (p b).map fun a => (a, b)) =
      (B.flatMap fun b => (p b).map fun a => (b, a)).map Prod.swap := by
    rw [map_flatMap]
    refine flatMap_congr fun b _ => ?_
    rw [map_map]
    rfl
  refine perm_iff_count.mpr fun e => ?_
  obtain ⟨x, y⟩ := e
  rw [hswap, count_pairs p hA, show (x, y) = Prod.swap (y, x) from rfl, count_map_of_injective _ _ Prod.swap_injective,
    count_pairs p hB, hm x y]
  by_cases hx : x ∈ A
  · by_cases hy : y ∈ B
    · rw [if_pos hx, if_pos hy]
    · rw [if_pos hx, if_neg hy, ← hm x y]
      exact count_eq_zero.mpr fun hmem => hy (hAB x hx y hmem)
  · by_cases hy : y ∈ B
    · rw [if_neg hx, if_pos hy]
      exact (count_eq_zero.mpr fun hmem => hx (hBA y hy x hmem)).symm
    · rw [if_neg hx, if_neg hy]

end Adjacency

end Metadef
