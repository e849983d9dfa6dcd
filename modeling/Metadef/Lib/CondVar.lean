import Mathlib.Data.List.Basic

/-! # Condition variables

Threads wait asleep on a condition variable until they are woken: one by a notification, all by a broadcast, any of them for
no reason. A woken thread has not run yet; it runs when it gets the lock again. This file gives the steps, and the account that
tells when no sleeper misses its place: while some sleep, at least as many are woken as there are places. -/

namespace Metadef

/-- The waiters of a condition variable that are asleep, and those woken that have not run yet. -/
structure CondVar (ω : Type) where
  asleep : List ω := []
  woken : List ω := []
  deriving DecidableEq, Repr

namespace CondVar

variable {ω : Type}

/-! ## Steps -/

/-- A waiter goes to sleep. -/
def wait (c : CondVar ω) (x : ω) : CondVar ω := { c with asleep := c.asleep ++ [x] }

/-- The sleeper at a position is woken. -/
def wake (c : CondVar ω) (i : Nat) : Option (CondVar ω) :=
  match c.asleep[i]? with
  | none => none
  | some x => some { asleep := c.asleep.eraseIdx i, woken := c.woken ++ [x] }

/-- One sleeper is woken, whichever; where none sleeps nothing happens. -/
def notifyOne (c : CondVar ω) (i : Nat) : Option (CondVar ω) := if c.asleep.isEmpty then some c else c.wake i

/-- All sleepers are woken. -/
def notifyAll (c : CondVar ω) : CondVar ω := { asleep := [], woken := c.woken ++ c.asleep }

/-- The woken waiter at a position runs. -/
def resume (c : CondVar ω) (k : Nat) : Option (ω × CondVar ω) :=
  match c.woken[k]? with
  | none => none
  | some x => some (x, { c with woken := c.woken.eraseIdx k })

/-! ## Places -/

/-- While some sleep, at least as many are woken as there are places. -/
def Covers (c : CondVar ω) (n : Nat) : Prop := c.asleep ≠ [] → n ≤ c.woken.length

variable {c d : CondVar ω} {n : Nat}

theorem covers_zero (c : CondVar ω) : c.Covers 0 := fun _ => Nat.zero_le _

theorem covers_of_awake (h : c.asleep = []) (n : Nat) : c.Covers n := fun hne => absurd h hne

theorem Covers.mono (h : c.Covers n) {m : Nat} (hm : m ≤ n) : c.Covers m := fun hne => Nat.le_trans hm (h hne)

/-- With a place there is a woken waiter for it. -/
theorem Covers.woken_ne_nil (h : c.Covers n) (hn : 0 < n) (hne : c.asleep ≠ []) : c.woken ≠ [] :=
  List.ne_nil_of_length_pos (Nat.lt_of_lt_of_le hn (h hne))

variable {i k : Nat} {x : ω}

/-- Waking a sleeper covers one place more. -/
theorem Covers.wake (h : c.Covers n) (hr : c.wake i = some d) : d.Covers (n + 1) := by
  unfold CondVar.wake at hr
  split at hr
  · cases hr
  · rename_i x hx
    obtain rfl := Option.some.inj hr
    intro _
    have hne : c.asleep ≠ [] := List.ne_nil_of_mem (List.mem_of_getElem? hx)
    simpa using h hne

/-- So does a notification. -/
theorem Covers.notifyOne (h : c.Covers n) (hr : c.notifyOne i = some d) : d.Covers (n + 1) := by
  unfold CondVar.notifyOne at hr
  split at hr
  · rename_i hnil
    obtain rfl := Option.some.inj hr
    exact covers_of_awake (List.isEmpty_iff.mp hnil) _
  · exact h.wake hr

/-- A waiter that runs covers its place no longer. -/
theorem Covers.resume (h : c.Covers n) (hr : c.resume k = some (x, d)) : d.Covers (n - 1) := by
  unfold CondVar.resume at hr
  split at hr
  · cases hr
  · rename_i y hy
    obtain ⟨-, rfl⟩ := Prod.mk.inj (Option.some.inj hr)
    intro hne
    have hlen := h hne
    obtain ⟨hk, -⟩ := List.getElem?_eq_some_iff.mp hy
    rw [List.length_eraseIdx_of_lt hk]
    omega

/-- A waiter that runs leaves the sleepers. -/
theorem asleep_resume (hr : c.resume k = some (x, d)) : d.asleep = c.asleep := by
  unfold CondVar.resume at hr
  split at hr
  · cases hr
  · obtain ⟨-, rfl⟩ := Prod.mk.inj (Option.some.inj hr)
    rfl

/-- Waking a sleeper brings no sleeper. -/
theorem asleep_wake (hr : c.wake i = some d) (hc : c.asleep = []) : d.asleep = [] := by
  unfold CondVar.wake at hr
  rw [hc] at hr
  cases hr

end CondVar

end Metadef
