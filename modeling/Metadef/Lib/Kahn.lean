import Mathlib.Algebra.GroupWithZero.Nat
import Mathlib.Algebra.Order.BigOperators.Group.Finset
import Mathlib.Data.Fintype.EquivFin

/-!
# Counting down to an order

A graph's vertices are visited one by one. Each vertex waits for a number of arrivals, kept in an unsigned counter that
wraps below zero; visiting a vertex is an arrival at each of its targets, and a target whose counter reaches zero becomes
pending. Which pending vertex is visited next is left open. This file shows what every such run keeps: nothing is visited
twice, and everything visited had its arrivals before. Where the number a vertex waits for covers its edges, edges point
forward in the order of visits, and where no pending vertex is dropped and the edges have no cycle, all are visited.
-/

namespace Metadef

open List Nat

namespace Kahn

variable {V : Type} [DecidableEq V]

/-! ## Counters -/

/-- The counter after one arrival, in unsigned arithmetic of a size. -/
def dec (size n : Nat) : Nat := (n + (size - 1)) % size

/-- The counter that started at a number after some arrivals. -/
def remaining (size k d : Nat) : Nat := if d ≤ k then k - d else size + k - d

theorem dec_remaining {size k d : Nat} (hk : k < size) (hd : d + 1 < size) :
    dec size (remaining size k d) = remaining size k (d + 1) := by
  unfold dec remaining
  have hsize : 0 < size := by omega
  split
  · rename_i hle
    by_cases he : d = k
    · subst he
      rw [if_neg (by omega), Nat.sub_self, Nat.zero_add, mod_eq_of_lt (by omega)]
      omega
    · rw [if_pos (by omega), show k - d + (size - 1) = k - (d + 1) + size by omega, add_mod_right,
        mod_eq_of_lt (by omega)]
  · rw [if_neg (by omega), show size + k - d + (size - 1) = size + k - (d + 1) + size by omega, add_mod_right,
      mod_eq_of_lt (by omega)]

theorem remaining_eq_zero {size k d : Nat} (hd : d < size) : remaining size k d = 0 ↔ d = k := by
  unfold remaining
  split <;> omega

/-- Counts an arrival at each target that has a counter, and collects those whose counter reaches zero. -/
def release (size : Nat) : (V → Option Nat) → List V → (V → Option Nat) × List V
  | c, [] => (c, [])
  | c, v :: ts =>
    match c v with
    | none => release size c ts
    | some n =>
      let r := release size (Function.update c v (some (dec size n))) ts
      (r.1, if dec size n = 0 then v :: r.2 else r.2)

/-- Two lists of targets one after the other. -/
theorem release_append (size : Nat) (c : V → Option Nat) (ts us : List V) : release size c (ts ++ us) =
      ((release size (release size c ts).1 us).1, (release size c ts).2 ++ (release size (release size c ts).1 us).2) := by
  induction ts generalizing c with
  | nil => rfl
  | cons v ts ih =>
    simp only [cons_append, release]
    cases c v with
    | none => exact ih c
    | some n =>
      simp only [ih]
      split <;> rfl

section
variable {size : Nat} {N : List V} {k : V → Nat}

/-- The counters when some arrivals have been counted. -/
def countersOf (size : Nat) (N : List V) (k arrived : V → Nat) (v : V) : Option Nat :=
  if v ∈ N then some (remaining size (k v) (arrived v)) else none

/-- The arrivals with one more at a vertex. -/
def bump (arrived : V → Nat) (u v : V) : Nat := arrived v + if v = u then 1 else 0

/-- Arrivals at a first target and then at the others. -/
theorem bump_add_count (arrived : V → Nat) (u : V) (ts : List V) (v : V) :
    bump arrived u v + ts.count v = arrived v + (u :: ts).count v := by
  unfold bump
  rw [count_cons]
  by_cases hvu : v = u
  · simp only [hvu, if_true, beq_self_eq_true]
    omega
  · simp [hvu, Ne.symm hvu]

/-- A target without a counter is passed over. -/
theorem release_cons_free (arrived : V → Nat) {u : V} (hu : u ∉ N) (ts : List V) :
    release size (countersOf size N k arrived) (u :: ts) = release size (countersOf size N k arrived) ts := by
  have hc : countersOf size N k arrived u = none := if_neg hu
  simp only [release, hc]

/-- A target with a counter is collected when the arrival is the last it waits for. -/
theorem release_cons_counted (hk : ∀ v ∈ N, k v < size) {arrived : V → Nat} {u : V} (hu : u ∈ N)
    (hd : arrived u + 1 < size) (ts : List V) :
    release size (countersOf size N k arrived) (u :: ts) =
      ((release size (countersOf size N k (bump arrived u)) ts).1,
        if arrived u + 1 = k u then u :: (release size (countersOf size N k (bump arrived u)) ts).2
        else (release size (countersOf size N k (bump arrived u)) ts).2) := by
  have hc : countersOf size N k arrived u = some (remaining size (k u) (arrived u)) := if_pos hu
  have hdec : dec size (remaining size (k u) (arrived u)) = remaining size (k u) (arrived u + 1) :=
    dec_remaining (hk u hu) hd
  have hnext : Function.update (countersOf size N k arrived) u (some (remaining size (k u) (arrived u + 1))) =
      countersOf size N k (bump arrived u) := by
    funext v
    rw [Function.update_apply]
    by_cases hv : v = u
    · subst hv
      simp [countersOf, bump, hu]
    · simp [countersOf, bump, hv]
  simp only [release, hc, hdec, hnext, remaining_eq_zero hd]

/-- A release counts each target as often as it is listed, and collects the targets that had arrivals missing and have
none missing now, each once. -/
theorem release_spec (hk : ∀ v ∈ N, k v < size) (ts : List V) : ∀ arrived : V → Nat, (∀ v ∈ N, arrived v + ts.count v < size) →
      (release size (countersOf size N k arrived) ts).1 = countersOf size N k (fun v => arrived v + ts.count v) ∧
      (release size (countersOf size N k arrived) ts).2.Nodup ∧
      ∀ v, v ∈ (release size (countersOf size N k arrived) ts).2 ↔
        v ∈ N ∧ arrived v < k v ∧ k v ≤ arrived v + ts.count v := by
  induction ts with
  | nil =>
    intro arrived _
    refine ⟨by simp [release], nodup_nil, fun v => ?_⟩
    simp only [release, not_mem_nil, count_nil, Nat.add_zero, false_iff]
    omega
  | cons u ts ih =>
    intro arrived hlt
    by_cases hu : u ∈ N
    · have hd : arrived u + 1 < size := by
        have := hlt u hu
        rw [count_cons_self] at this
        omega
      obtain ⟨h1, h2, h3⟩ := ih (bump arrived u) fun v hv => by
        rw [bump_add_count]
        exact hlt v hv
      simp only [bump_add_count] at h1 h3
      rw [release_cons_counted hk hu hd]
      refine ⟨h1, ?_, fun v => ?_⟩
      · simp only
        split
        · refine nodup_cons.mpr ⟨fun hmem => ?_, h2⟩
          obtain ⟨-, hmissing, -⟩ := (h3 u).mp hmem
          simp only [bump, if_true] at hmissing
          omega
        · exact h2
      · have h3v := h3 v
        by_cases hv : v = u
        · subst hv
          rw [count_cons_self] at h3v ⊢
          simp only [bump, if_true] at h3v
          split
          · simp only [mem_cons, true_or, true_iff]
            exact ⟨hu, by omega, by omega⟩
          · rw [h3v]
            refine and_congr_right fun _ => ?_
            omega
        · simp only [bump, hv, if_false, Nat.add_zero] at h3v
          split <;> simp [hv, h3v]
    · have hcount : ∀ v ∈ N, (u :: ts).count v = ts.count v := by
        intro v hv
        have hne : u ≠ v := fun he => hu (he ▸ hv)
        exact count_cons_of_ne hne
      rw [release_cons_free arrived hu]
      obtain ⟨h1, h2, h3⟩ := ih arrived fun v hv => by
        rw [← hcount v hv]
        exact hlt v hv
      refine ⟨?_, h2, fun v => ?_⟩
      · rw [h1]
        funext v
        by_cases hv : v ∈ N
        · simp [countersOf, hv, hcount v hv]
        · simp [countersOf, hv]
      · rw [h3]
        refine and_congr_right fun hv => ?_
        rw [hcount v hv]

end

/-! ## Runs -/

/-- The vertices visited in order, those pending, and the counters. -/
structure State (V : Type) where
  visited : List V
  pending : List V
  counters : V → Option Nat

/-- How often a vertex is a target of the vertices of a list. -/
def arrivals (out : V → List V) (l : List V) (v : V) : Nat := (l.map fun u => (out u).count v).sum

/-- A visit of some pending vertex. The vertices it releases may be dropped. -/
inductive Visit (size : Nat) (out : V → List V) : State V → State V → Prop where
  | mk (u : V) (rest : List V) (s t : State V) (picked : s.pending.Perm (u :: rest))
      (visited : t.visited = s.visited ++ [u]) (counters : t.counters = (release size s.counters (out u)).1)
      (pending : t.pending.Subperm (rest ++ (release size s.counters (out u)).2)) : Visit size out s t

/-- A visit that drops nothing. -/
inductive FullVisit (size : Nat) (out : V → List V) : State V → State V → Prop where
  | mk (u : V) (rest : List V) (s t : State V) (picked : s.pending.Perm (u :: rest))
      (visited : t.visited = s.visited ++ [u]) (counters : t.counters = (release size s.counters (out u)).1)
      (pending : t.pending.Perm (rest ++ (release size s.counters (out u)).2)) : FullVisit size out s t

theorem FullVisit.visit {size : Nat} {out : V → List V} {s t : State V} (h : FullVisit size out s t) : Visit size out s t := by
  obtain ⟨u, rest, s, t, hpicked, hvisited, hcounters, hpending⟩ := h
  exact ⟨u, rest, s, t, hpicked, hvisited, hcounters, hpending.subperm⟩

/-- What every run keeps, also where vertices are listed repeatedly: none is visited or pending more often than it is listed,
the counters are those of the arrivals, and what is visited or pending has had the arrivals it waits for. -/
structure Listed (size : Nat) (N : List V) (out : V → List V) (k : V → Nat) (s : State V) : Prop where
  subperm : (s.visited ++ s.pending).Subperm N
  counters : s.counters = countersOf size N k (arrivals out s.visited)
  ready : ∀ v ∈ s.visited ++ s.pending, k v ≤ arrivals out s.visited v

/-- What every run over vertices listed once keeps: none is visited or pending twice, the counters are those of the arrivals,
and every vertex had the arrivals it waits for when it became pending. -/
structure Valid (size : Nat) (N : List V) (out : V → List V) (k : V → Nat) (s : State V) : Prop where
  nodup : (s.visited ++ s.pending).Nodup
  subset : s.visited ++ s.pending ⊆ N
  counters : s.counters = countersOf size N k (arrivals out s.visited)
  ready : ∀ v ∈ s.pending, k v ≤ arrivals out s.visited v
  order : ∀ pre v post, s.visited = pre ++ v :: post → k v ≤ arrivals out pre v

/-- Every vertex that had the arrivals it waits for is visited or pending. -/
def Complete (N : List V) (out : V → List V) (k : V → Nat) (s : State V) : Prop :=
  ∀ v ∈ N, k v ≤ arrivals out s.visited v → v ∈ s.visited ++ s.pending

section
variable {size : Nat} {N : List V} {out : V → List V} {k : V → Nat}

theorem arrivals_append (l l' : List V) (v : V) : arrivals out (l ++ l') v = arrivals out l v + arrivals out l' v := by
  simp [arrivals]

theorem arrivals_singleton (u v : V) : arrivals out [u] v = (out u).count v := by
  simp [arrivals]

variable {l l' rest pending : List V} {s t : State V} {u v : V}

omit [DecidableEq V] in
/-- A sum over a part of a list is at most the sum over the list. -/
theorem sum_le_of_subperm (h : l.Subperm l') (f : V → Nat) : (l.map f).sum ≤ (l'.map f).sum := by
  obtain ⟨m, hperm, hsub⟩ := h
  rw [← (hperm.map f).sum_eq]
  exact (hsub.map f).sum_le_sum fun _ _ => Nat.zero_le _

omit [DecidableEq V] in
/-- A part of a list without repeats has none. -/
theorem nodup_of_subperm (h : l.Subperm l') (hl : l'.Nodup) : l.Nodup := by
  obtain ⟨m, hperm, hsub⟩ := h
  exact hperm.nodup_iff.mp (hsub.nodup hl)

/-- Fewer vertices make fewer arrivals. -/
theorem arrivals_le (h : l.Subperm l') (v : V) : arrivals out l v ≤ arrivals out l' v :=
  sum_le_of_subperm h _

/-- What a visit releases: vertices that had arrivals missing and have none missing now, each once, and the counters that
follow. -/
theorem Listed.release (hk : ∀ v ∈ N, k v < size) (hsize : ∀ v ∈ N, arrivals out N v < size)
    (hs : Listed size N out k s) (hpicked : s.pending.Perm (u :: rest)) :
    (Kahn.release size s.counters (out u)).1 = countersOf size N k (arrivals out (s.visited ++ [u])) ∧
      (Kahn.release size s.counters (out u)).2.Nodup ∧
      ∀ v, v ∈ (Kahn.release size s.counters (out u)).2 ↔
        v ∈ N ∧ arrivals out s.visited v < k v ∧ k v ≤ arrivals out (s.visited ++ [u]) v := by
  have hnext : ∀ v, arrivals out s.visited v + (out u).count v = arrivals out (s.visited ++ [u]) v := by
    intro v
    rw [arrivals_append, arrivals_singleton]
  have hsub : (s.visited ++ [u]).Subperm N := by
    have hperm : (s.visited ++ s.pending).Perm (s.visited ++ [u] ++ rest) := by
      simpa using hpicked.append_left s.visited
    exact (sublist_append_left _ rest).subperm.trans (hperm.symm.subperm.trans hs.subperm)
  rw [hs.counters]
  have hspec := release_spec hk (out u) (arrivals out s.visited) fun v hv => by
    rw [hnext]
    exact Nat.lt_of_le_of_lt (arrivals_le hsub v) (hsize v hv)
  simpa only [hnext] using hspec

/-- A vertex a visit releases is new: it had arrivals missing, and those visited or pending had none. -/
theorem Listed.released_fresh (hk : ∀ v ∈ N, k v < size) (hsize : ∀ v ∈ N, arrivals out N v < size)
    (hs : Listed size N out k s) (hpicked : s.pending.Perm (u :: rest))
    (hv : v ∈ (Kahn.release size s.counters (out u)).2) : v ∉ s.visited ++ s.pending := by
  intro hin
  have hmissing := (((hs.release hk hsize hpicked).2.2 v).mp hv).2.1
  have := hs.ready v hin
  omega

/-- A part of a list and other items of it, each once, are a part together. -/
theorem subperm_append_of_fresh {r N : List V} (hl : l.Subperm N) (hr : r.Nodup) (hsub : r ⊆ N)
    (hfresh : ∀ v ∈ r, v ∉ l) : (l ++ r).Subperm N := by
  refine subperm_ext_iff.mpr fun v _ => ?_
  rw [count_append]
  by_cases hv : v ∈ r
  · rw [count_eq_zero.mpr (hfresh v hv), count_eq_one_of_mem hr hv, Nat.zero_add]
    exact count_pos_iff.mpr (hsub hv)
  · rw [count_eq_zero.mpr hv, Nat.add_zero]
    exact hl.count_le v

/-- Every visit keeps a state listed. -/
theorem Listed.visit (hk : ∀ v ∈ N, k v < size) (hsize : ∀ v ∈ N, arrivals out N v < size)
    (hs : Listed size N out k s) (h : Visit size out s t) : Listed size N out k t := by
  obtain ⟨u, rest, s, t, hpicked, hvisited, hcounters, hpending⟩ := h
  obtain ⟨hc, hnodup, hmem⟩ := hs.release hk hsize hpicked
  have hperm : (s.visited ++ s.pending).Perm (s.visited ++ [u] ++ rest) := by
    simpa using hpicked.append_left s.visited
  have hmono : ∀ v, arrivals out s.visited v ≤ arrivals out t.visited v := by
    intro v
    rw [hvisited]
    exact arrivals_le (sublist_append_left _ _).subperm v
  have hall : (t.visited ++ t.pending).Subperm
      (s.visited ++ [u] ++ rest ++ (Kahn.release size s.counters (out u)).2) := by
    rw [hvisited, append_assoc _ rest]
    exact (subperm_append_left _).mpr hpending
  refine ⟨hall.trans ?_, ?_, fun v hv => ?_⟩
  · refine subperm_append_of_fresh (hperm.symm.subperm.trans hs.subperm) hnodup (fun v hv => ((hmem v).mp hv).1) ?_
    intro v hv hin
    exact hs.released_fresh hk hsize hpicked hv (hperm.mem_iff.mpr hin)
  · rw [hcounters, hc, hvisited]
  · rcases mem_append.mp (hall.subset hv) with hv | hv
    · exact (hs.ready v (hperm.mem_iff.mpr hv)).trans (hmono v)
    · rw [hvisited]
      exact ((hmem v).mp hv).2.2

/-- The first state: the vertices that wait for nothing are pending, as often as they are listed. -/
theorem listed_start (hsub : pending.Subperm N) (hzero : ∀ v ∈ pending, k v = 0) :
    Listed size N out k ⟨[], pending, countersOf size N k fun _ => 0⟩ where
  subperm := hsub
  counters := rfl
  ready v hv := by
    rw [hzero v hv]
    exact Nat.zero_le _

theorem Valid.listed (hs : Valid size N out k s) : Listed size N out k s where
  subperm := hs.nodup.subperm hs.subset
  counters := hs.counters
  ready v hv := by
    rcases mem_append.mp hv with hv | hv
    · obtain ⟨pre, post, hsplit⟩ := append_of_mem hv
      have hpre : arrivals out pre v ≤ arrivals out s.visited v := by
        rw [hsplit]
        exact arrivals_le (sublist_append_left _ _).subperm v
      exact (hs.order pre v post hsplit).trans hpre
    · exact hs.ready v hv

/-- Every visit keeps a state valid. -/
theorem Valid.visit (hk : ∀ v ∈ N, k v < size) (hsize : ∀ v ∈ N, arrivals out N v < size)
    (hs : Valid size N out k s) (h : Visit size out s t) : Valid size N out k t := by
  have hlisted : Listed size N out k t := hs.listed.visit hk hsize h
  obtain ⟨u, rest, s, t, hpicked, hvisited, hcounters, hpending⟩ := h
  obtain ⟨-, hnodup, -⟩ := hs.listed.release hk hsize hpicked
  have hperm : (s.visited ++ s.pending).Perm (s.visited ++ [u] ++ rest) := by
    simpa using hpicked.append_left s.visited
  have hready : ∀ v ∈ s.pending, k v ≤ arrivals out s.visited v := hs.ready
  have hfresh : ∀ v ∈ (Kahn.release size s.counters (out u)).2, v ∉ s.visited ++ [u] ++ rest := fun v hv hin =>
    hs.listed.released_fresh hk hsize hpicked hv (hperm.mem_iff.mpr hin)
  have hall : (t.visited ++ t.pending).Subperm
      (s.visited ++ [u] ++ rest ++ (Kahn.release size s.counters (out u)).2) := by
    rw [hvisited, append_assoc _ rest]
    exact (subperm_append_left _).mpr hpending
  refine ⟨?_, hlisted.subperm.subset, hlisted.counters, fun v hv => hlisted.ready v (mem_append_right _ hv), ?_⟩
  · refine nodup_of_subperm hall (nodup_append.mpr ⟨hperm.nodup_iff.mp hs.nodup, hnodup, ?_⟩)
    intro a ha b hb hab
    exact hfresh b hb (hab ▸ ha)
  · intro pre v post hsplit
    rw [hvisited] at hsplit
    rcases List.append_eq_append_iff.mp hsplit with ⟨l, hpre, hl⟩ | ⟨l, hpre, hl⟩
    · cases l with
      | nil =>
        obtain ⟨rfl, -⟩ : u = v ∧ [] = post := by simpa using hl
        rw [hpre, append_nil]
        exact hready u (hpicked.mem_iff.mpr mem_cons_self)
      | cons a l => simp at hl
    · cases l with
      | nil =>
        obtain ⟨rfl, -⟩ : v = u ∧ post = [] := by simpa using hl
        rw [append_nil] at hpre
        rw [← hpre]
        exact hready v (hpicked.mem_iff.mpr mem_cons_self)
      | cons a l =>
        obtain ⟨rfl, -⟩ : v = a ∧ post = l ++ [u] := by simpa using hl
        exact hs.order pre v l hpre

/-- A visit that drops nothing keeps every vertex that is ready visited or pending. -/
theorem Complete.fullVisit (hk : ∀ v ∈ N, k v < size) (hsize : ∀ v ∈ N, arrivals out N v < size)
    (hs : Valid size N out k s) (hfull : Complete N out k s) (h : FullVisit size out s t) : Complete N out k t := by
  obtain ⟨u, rest, s, t, hpicked, hvisited, hcounters, hpending⟩ := h
  obtain ⟨-, -, hmem⟩ := hs.listed.release hk hsize hpicked
  intro v hv hready
  rw [hvisited, append_assoc, mem_append, singleton_append, mem_cons]
  by_cases hold : k v ≤ arrivals out s.visited v
  · rcases mem_append.mp (hfull v hv hold) with hin | hin
    · exact .inl hin
    · rcases mem_cons.mp (hpicked.mem_iff.mp hin) with rfl | hin
      · exact .inr (.inl rfl)
      · exact .inr (.inr (hpending.mem_iff.mpr (mem_append_left _ hin)))
  · have hreleased : v ∈ (Kahn.release size s.counters (out u)).2 :=
      (hmem v).mpr ⟨hv, Nat.lt_of_not_le hold, hvisited ▸ hready⟩
    exact .inr (.inr (hpending.mem_iff.mpr (mem_append_right _ hreleased)))

/-- A vertex that is ready and neither visited nor pending stays so. -/
theorem lost_visit (hk : ∀ v ∈ N, k v < size) (hsize : ∀ v ∈ N, arrivals out N v < size)
    (hs : Valid size N out k s) (h : Visit size out s t) (hready : k v ≤ arrivals out s.visited v)
    (hlost : v ∉ s.visited ++ s.pending) : k v ≤ arrivals out t.visited v ∧ v ∉ t.visited ++ t.pending := by
  obtain ⟨u, rest, s, t, hpicked, hvisited, hcounters, hpending⟩ := h
  obtain ⟨-, -, hmem⟩ := hs.listed.release hk hsize hpicked
  rw [hvisited]
  refine ⟨hready.trans (arrivals_le (sublist_append_left _ _).subperm v), fun hin => hlost ?_⟩
  rcases mem_append.mp hin with hin | hin
  · rcases mem_append.mp hin with hin | hin
    · exact mem_append_left _ hin
    · obtain rfl : v = u := mem_singleton.mp hin
      exact mem_append_right _ (hpicked.mem_iff.mpr mem_cons_self)
  · rcases mem_append.mp (hpending.subset hin) with hin | hin
    · exact mem_append_right _ (hpicked.mem_iff.mpr (mem_cons_of_mem u hin))
    · have hmissing := ((hmem v).mp hin).2.1
      omega

/-- No more vertices are visited than there are. -/
theorem Valid.length_le (hs : Valid size N out k s) : s.visited.length + s.pending.length ≤ N.length := by
  rw [← length_append]
  exact (hs.nodup.subperm hs.subset).length_le

/-- The first state: the vertices that wait for nothing are pending. -/
theorem valid_start (hnodup : pending.Nodup) (hmem : ∀ v ∈ pending, v ∈ N ∧ k v = 0) :
    Valid size N out k ⟨[], pending, countersOf size N k fun _ => 0⟩ where
  nodup := hnodup
  subset v hv := (hmem v hv).1
  counters := rfl
  ready v hv := by
    rw [(hmem v hv).2]
    exact Nat.zero_le _
  order pre v post h := by simp at h

theorem complete_start (hmem : ∀ v ∈ N, k v = 0 → v ∈ pending) (c : V → Option Nat) : Complete N out k ⟨[], pending, c⟩ := by
  intro v hv hready
  exact hmem v hv (Nat.le_zero.mp hready)

end

/-! ## The order of visits -/

section
variable {size : Nat} {N : List V} {out : V → List V} {k : V → Nat}
variable {ahead back : V → V → Nat}

/-- Where a vertex waits for all its edges ahead, and a target of a back edge is an ancestor of its source along edges
ahead, the vertices visited have the sources of their edges ahead before them. -/
theorem Valid.ahead_visited (hout : ∀ u ∈ N, ∀ v ∈ N, (out u).count v = ahead u v + back u v)
    (hk : ∀ v ∈ N, (N.map (ahead · v)).sum ≤ k v)
    (hback : ∀ w ∈ N, ∀ v ∈ N, 0 < back w v → Relation.ReflTransGen (fun a b => a ∈ N ∧ 0 < ahead a b) v w)
    {s : State V} (hs : Valid size N out k s) :
    ∀ n, ∀ pre v post, pre.length = n → s.visited = pre ++ v :: post → ∀ u ∈ N, 0 < ahead u v → u ∈ pre := by
  intro n
  induction n using Nat.strong_induction_on with
  | _ n ih =>
    rintro pre v post rfl hsplit u hu huv
    have hnodup : (pre ++ v :: post).Nodup := hsplit ▸ hs.nodup.of_append_left
    have hsub : ∀ x ∈ pre ++ v :: post, x ∈ N := fun x hx => hs.subset (mem_append_left _ (hsplit ▸ hx))
    have hv : v ∈ N := hsub v (by simp)
    -- the vertices before this one have all their ancestors before it
    have hanc : ∀ w ∈ pre, ∀ x, Relation.ReflTransGen (fun a b => a ∈ N ∧ 0 < ahead a b) x w → x ∈ pre := by
      intro w hw x hx
      induction hx using Relation.ReflTransGen.head_induction_on with
      | refl => exact hw
      | @head a b hab _ hb =>
        obtain ⟨l, r, hlr⟩ := append_of_mem hb
        have hlen : l.length < pre.length := by
          rw [hlr]
          simp
        have hsplit' : s.visited = l ++ b :: (r ++ v :: post) := by
          rw [hsplit, hlr]
          simp
        rw [hlr]
        exact mem_append_left _ (ih l.length hlen l b _ rfl hsplit' a hab.1 hab.2)
    -- so no back edge has arrived yet
    have harr : arrivals out pre v = (pre.map (ahead · v)).sum := by
      refine congrArg List.sum (map_congr_left fun w hw => ?_)
      have hwN : w ∈ N := hsub w (mem_append_left _ hw)
      rw [hout w hwN v hv]
      have hzero : back w v = 0 := by
        refine Nat.eq_zero_of_not_pos fun hpos => ?_
        have hin : v ∈ pre := hanc w hw v (hback w hwN v hv hpos)
        exact (nodup_append.mp hnodup).2.2 v hin v mem_cons_self rfl
      rw [hzero, Nat.add_zero]
    by_contra hnot
    have hcons : (u :: pre).Subperm N := by
      refine (nodup_cons.mpr ⟨hnot, hnodup.of_append_left⟩).subperm ?_
      intro x hx
      rcases mem_cons.mp hx with rfl | hx
      · exact hu
      · exact hsub x (mem_append_left _ hx)
    have hsum := sum_le_of_subperm hcons (ahead · v)
    rw [map_cons, sum_cons] at hsum
    have hle := hs.order pre v post hsplit
    have := hk v hv
    omega

/-- Where nothing ready was dropped, a vertex waits for no more than its edges ahead and these have no cycle, a run that
has ended has visited every vertex. -/
theorem Complete.all_visited (hN : N.Nodup) (hout : ∀ u ∈ N, ∀ v ∈ N, (out u).count v = ahead u v + back u v)
    (hk : ∀ v ∈ N, k v ≤ (N.map (ahead · v)).sum)
    (hacyclic : ∀ v, ¬ Relation.TransGen (fun a b => (a ∈ N ∧ b ∈ N) ∧ 0 < ahead a b) v v)
    {s : State V} (hs : Valid size N out k s) (hfull : Complete N out k s) (hend : s.pending = []) :
    ∀ v ∈ N, v ∈ s.visited := by
  let before : {v // v ∈ N} → {v // v ∈ N} → Prop :=
    Relation.TransGen fun a b => 0 < ahead a.1 b.1
  have hlift : ∀ a b, before a b → Relation.TransGen (fun a b => (a ∈ N ∧ b ∈ N) ∧ 0 < ahead a b) a.1 b.1 := by
    intro a b hab
    exact Relation.TransGen.lift Subtype.val (fun x y hxy => ⟨⟨x.2, y.2⟩, hxy⟩) a b hab
  have hwf : WellFounded before := by
    have : Finite {v // v ∈ N} := Finite.of_fintype _
    have : Std.Irrefl before := ⟨fun a ha => hacyclic a.1 (hlift a a ha)⟩
    have : IsTrans {v // v ∈ N} before := ⟨fun _ _ _ hab hbc => Relation.TransGen.trans hab hbc⟩
    exact Finite.wellFounded_of_trans_of_irrefl before
  have hall : ∀ a : {v // v ∈ N}, a.1 ∈ s.visited := by
    intro a
    induction a using hwf.induction with
    | _ a ih =>
      obtain ⟨v, hv⟩ := a
      have hnodup : s.visited.Nodup := hs.nodup.of_append_left
      have hsub : s.visited ⊆ N := fun x hx => hs.subset (mem_append_left _ hx)
      -- the sources of the edges ahead have been visited, so their arrivals have been counted
      have hsum : (N.map (ahead · v)).sum ≤ arrivals out s.visited v := by
        rw [← sum_toFinset _ hN, arrivals, ← sum_toFinset _ hnodup]
        calc N.toFinset.sum (ahead · v) = s.visited.toFinset.sum (ahead · v) := by
              refine (Finset.sum_subset (fun x hx => mem_toFinset.mpr (hsub (mem_toFinset.mp hx))) ?_).symm
              intro x hx hnot
              refine Nat.eq_zero_of_not_pos fun hpos => hnot (mem_toFinset.mpr ?_)
              exact ih ⟨x, mem_toFinset.mp hx⟩ (Relation.TransGen.single hpos)
          _ ≤ s.visited.toFinset.sum fun u => (out u).count v := by
              refine Finset.sum_le_sum fun x hx => ?_
              rw [hout x (hsub (mem_toFinset.mp hx)) v hv]
              exact Nat.le_add_right _ _
      have hin := hfull v hv ((hk v hv).trans hsum)
      rwa [hend, append_nil] at hin
  exact fun v hv => hall ⟨v, hv⟩

end

end Kahn

end Metadef
