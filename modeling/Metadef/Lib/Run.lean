import Mathlib.Data.List.Infix

/-! # Runs of a machine

A machine takes a state and a call to the state after it, when the call has one. A run is a list of calls; this
file gives the rule by which an invariant of one call is an invariant of every run. A loop takes steps until there is
none left; its rules are that of the invariant, that of two loops in step and that of the measure which bounds its steps. -/

namespace Metadef

open List

namespace Run

variable {σ κ : Type}

/-- The state a run ends in. -/
def exec (step : σ → κ → Option σ) : List κ → σ → Option σ
  | [], s => some s
  | c :: cs, s => (step s c).bind (exec step cs)

/-- Every call of the run meets a condition on the state it starts from. -/
def Each (step : σ → κ → Option σ) (ok : σ → κ → Prop) : List κ → σ → Prop
  | [], _ => True
  | c :: cs, s => ok s c ∧ ∀ t, step s c = some t → Each step ok cs t

instance Each.decidable (step : σ → κ → Option σ) (ok : σ → κ → Prop) [∀ s c, Decidable (ok s c)] :
    ∀ cs s, Decidable (Each step ok cs s)
  | [], _ => isTrue trivial
  | c :: cs, s =>
    match hs : step s c with
    | none => decidable_of_iff (ok s c) (by simp [Each, hs])
    | some t =>
      have := Each.decidable step ok cs t
      decidable_of_iff (ok s c ∧ Each step ok cs t) (by simp [Each, hs])

variable {P : σ → Prop} {step : σ → κ → Option σ} {ok : σ → κ → Prop} {next : σ → Option σ}

/-- What one call keeps under its condition, a run whose calls all meet the condition keeps. -/
theorem invariant {f : σ → κ → Option σ} {Q : σ → κ → Prop} (hstep : ∀ s c t, P s → Q s c → f s c = some t → P t) :
    ∀ cs s t, P s → Each f Q cs s → exec f cs s = some t → P t := by
  intro cs
  induction cs with
  | nil =>
    intro s t hs _ h
    obtain rfl : s = t := by simpa [exec] using h
    exact hs
  | cons c cs ih =>
    intro s t hs hok h
    simp only [exec, Option.bind_eq_some_iff] at h
    obtain ⟨m, hm, ht⟩ := h
    exact ih m t (hstep s c m hs hok.1 hm) (hok.2 m hm) ht

/-- A condition met by every call in every state is met by every run. -/
theorem each_of_forall (h : ∀ s c, ok s c) : ∀ cs s, Each step ok cs s
  | [], _ => trivial
  | c :: cs, s => ⟨h s c, fun t _ => each_of_forall h cs t⟩

/-- Two conditions that agree in every state with an invariant are met by the same runs, where one of them keeps it. -/
theorem each_congr {ok' : σ → κ → Prop}
    (hiff : ∀ s c, P s → (ok s c ↔ ok' s c)) (hstep : ∀ s c t, P s → ok s c → step s c = some t → P t) :
    ∀ cs s, P s → (Each step ok cs s ↔ Each step ok' cs s) := by
  intro cs
  induction cs with
  | nil => exact fun _ _ => Iff.rfl
  | cons c cs ih =>
    intro s hs
    constructor
    · rintro ⟨hc, hrest⟩
      exact ⟨(hiff s c hs).mp hc, fun t ht => (ih t (hstep s c t hs hc ht)).mp (hrest t ht)⟩
    · rintro ⟨hc, hrest⟩
      have hc' := (hiff s c hs).mpr hc
      exact ⟨hc', fun t ht => (ih t (hstep s c t hs hc' ht)).mpr (hrest t ht)⟩

/-- What is true of the calls of a run can be added to a condition they meet. -/
theorem each_and_mem {Q : κ → Prop} : ∀ cs s, (∀ c ∈ cs, Q c) → Each step ok cs s → Each step (fun s c => ok s c ∧ Q c) cs s := by
  intro cs
  induction cs with
  | nil => exact fun _ _ _ => trivial
  | cons c cs ih =>
    rintro s hq ⟨hc, hrest⟩
    exact ⟨⟨hc, hq c mem_cons_self⟩, fun t ht => ih t (fun d hd => hq d (mem_cons_of_mem c hd)) (hrest t ht)⟩

/-- A machine that has a step for every call runs through. -/
theorem exec_returns (htotal : ∀ s c, ∃ t, step s c = some t) : ∀ cs s, ∃ t, exec step cs s = some t := by
  intro cs
  induction cs with
  | nil => exact fun s => ⟨s, rfl⟩
  | cons c cs ih =>
    intro s
    obtain ⟨m, hm⟩ := htotal s c
    obtain ⟨t, ht⟩ := ih m
    exact ⟨t, by simp [exec, hm, ht]⟩

/-- A run of one part and then another is the second from the state the first ends in. -/
theorem exec_append (step : σ → κ → Option σ) (cs ds : List κ) (s : σ) :
    exec step (cs ++ ds) s = (exec step cs s).bind (exec step ds) := by
  induction cs generalizing s with
  | nil => rfl
  | cons c cs ih =>
    simp only [cons_append, exec]
    cases step s c with
    | none => rfl
    | some t => simpa using ih t

/-! ## Loops -/

/-- The state in which a loop stops, none when it takes more steps than a bound. -/
def loop (next : σ → Option σ) : Nat → σ → Option σ
  | 0, _ => none
  | fuel + 1, s =>
    match next s with
    | none => some s
    | some t => loop next fuel t

/-- A loop stops in a state that has what every step keeps, and from which there is no step. -/
theorem loop_invariant (hstep : ∀ s t, P s → next s = some t → P t) :
    ∀ fuel s t, P s → loop next fuel s = some t → P t ∧ next t = none := by
  intro fuel
  induction fuel with
  | zero =>
    intro s t _ h
    cases h
  | succ fuel ih =>
    intro s t hs h
    unfold loop at h
    cases hn : next s with
    | none =>
      rw [hn] at h
      obtain rfl : s = t := Option.some.inj h
      exact ⟨hs, hn⟩
    | some u =>
      rw [hn] at h
      exact ih u t (hstep s u hs hn) h

/-- Two loops whose steps go together from related states stop together, in related states. -/
theorem loop_related {τ : Type} {next' : τ → Option τ} {R : σ → τ → Prop}
    (hstep : ∀ s s', R s s' → Option.Rel R (next s) (next' s')) :
    ∀ fuel s s', R s s' → Option.Rel R (loop next fuel s) (loop next' fuel s') := by
  intro fuel
  induction fuel with
  | zero => exact fun _ _ _ => .none
  | succ fuel ih =>
    intro s s' hs
    have hn := hstep s s' hs
    unfold loop
    revert hn
    cases next s with
    | none =>
      cases next' s' with
      | none => exact fun _ => .some hs
      | some t' => exact fun hn => nomatch hn
    | some t =>
      cases next' s' with
      | none => exact fun hn => nomatch hn
      | some t' =>
        rintro (⟨ht⟩)
        exact ih t t' ht

/-- A loop whose steps grow a measure stops before it takes as many steps as the measure's bound leaves. -/
theorem loop_stops (measure : σ → Nat) (bound : Nat)
    (hstep : ∀ s t, P s → next s = some t → P t ∧ measure t = measure s + 1) (hbound : ∀ s, P s → measure s ≤ bound) :
    ∀ fuel s, P s → bound < measure s + fuel → ∃ t, loop next fuel s = some t := by
  intro fuel
  induction fuel with
  | zero =>
    intro s hs hlt
    have := hbound s hs
    omega
  | succ fuel ih =>
    intro s hs hlt
    unfold loop
    cases hn : next s with
    | none => exact ⟨s, rfl⟩
    | some u =>
      obtain ⟨hu, hm⟩ := hstep s u hs hn
      exact ih u hu (by omega)

/-- A loop whose steps bring a measure down in a well-founded order stops. -/
theorem loop_stops_of_wellFounded {β : Type} {r : β → β → Prop} (hwf : WellFounded r)
    (measure : σ → β) (hstep : ∀ s t, P s → next s = some t → P t ∧ r (measure t) (measure s)) :
    ∀ s, P s → ∃ fuel t, loop next fuel s = some t := by
  have hall : ∀ m s, measure s = m → P s → ∃ fuel t, loop next fuel s = some t := by
    intro m
    induction m using hwf.induction with
    | _ m ih =>
      intro s hm hs
      cases hn : next s with
      | none => exact ⟨1, s, by simp [loop, hn]⟩
      | some t =>
        obtain ⟨ht, hlt⟩ := hstep s t hs hn
        obtain ⟨fuel, u, hu⟩ := ih (measure t) (hm ▸ hlt) t rfl ht
        exact ⟨fuel + 1, u, by simpa [loop, hn] using hu⟩
  exact fun s hs => hall (measure s) s rfl hs

end Run

end Metadef
