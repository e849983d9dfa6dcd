/-! # Commands over a state

A command takes a state to a result and a new state, or has no defined outcome. The sequencing is that of
`StateT` over `Option`; this file adds the loop that stops at the first failure and the rules by which a
property of the state is carried over a command. -/

namespace Metadef

open List

/-- A command on states `σ` with results `α`. No outcome stands for a run the language leaves undefined or that
    never returns. -/
abbrev Cmd (σ α : Type) := StateT σ Option α

namespace Cmd

variable {σ α β : Type}

/-! ## Running -/

/-- The command without an outcome. -/
def undef : Cmd σ α := fun _ => none

/-- The loop that runs a command on each item and stops with failure at the first item that fails. -/
def eachOk (f : α → Cmd σ Bool) : List α → Cmd σ Bool
  | [] => pure true
  | a :: as => do
    if !(← f a) then return false
    eachOk f as

/-- The loop that runs a command on each item and ignores its status. -/
def each (f : α → Cmd σ Bool) : List α → Cmd σ Unit
  | [] => pure ()
  | a :: as => do
    let _ ← f a
    each f as

/-- A loop over two lists runs over the first, and goes on with the second if it did not fail. -/
theorem eachOk_append (f : α → Cmd σ Bool) (l l' : List α) (s : σ) :
    Cmd.eachOk f (l ++ l') s = (do if !(← Cmd.eachOk f l) then return false
                                   Cmd.eachOk f l' : Cmd σ Bool) s := by
  induction l generalizing s with
  | nil => rfl
  | cons a l ih =>
    rw [cons_append, Cmd.eachOk, Cmd.eachOk]
    simp only [bind, StateT.bind]
    cases f a s with
    | none => rfl
    | some r =>
      obtain ⟨ok, t⟩ := r
      cases ok with
      | false => rfl
      | true => exact ih t

@[simp] theorem pure_apply (a : α) (s : σ) : (pure a : Cmd σ α) s = some (a, s) := rfl

@[simp] theorem get_apply (s : σ) : (get : Cmd σ σ) s = some (s, s) := rfl

@[simp] theorem set_apply (s t : σ) : (set t : Cmd σ PUnit) s = some (⟨⟩, t) := rfl

@[simp] theorem modify_apply (f : σ → σ) (s : σ) : (modify f : Cmd σ PUnit) s = some (⟨⟩, f s) := rfl

@[simp] theorem undef_apply (s : σ) : (undef : Cmd σ α) s = none := rfl

variable {a : α} {s t : σ} {c : Cmd σ α} {P I : σ → Prop} {γ : Type} {f : α → Cmd σ Bool}
  {l : List α}

/-- What a command returned, and the state it left. -/
theorem of_return {b : α} (h : some (a, s) = some (b, t)) : a = b ∧ s = t := Prod.mk.inj (Option.some.inj h)

/-- A sequence has an outcome when its first part has one from which its second part has one. -/
theorem bind_eq_some {f : α → Cmd σ β} {r : β × σ} : (c >>= f) s = some r ↔ ∃ a t, c s = some (a, t) ∧ f a t = some r := by
  simp only [bind, StateT.bind]
  cases c s with
  | none => simp
  | some p => cases p; simp [and_assoc]

/-- A sequence whose first part is known continues from its outcome. -/
theorem bind_of_eq {f : α → Cmd σ β} (h : c s = some (a, t)) : (c >>= f) s = f a t := by
  simp [bind, StateT.bind, h]

@[simp] theorem get_bind_apply (f : σ → Cmd σ β) (s : σ) : ((get : Cmd σ σ) >>= f) s = f s s := rfl

@[simp] theorem modify_bind_apply (g : σ → σ) (f : PUnit → Cmd σ β) (s : σ) :
    ((modify g : Cmd σ PUnit) >>= f) s = f ⟨⟩ (g s) := rfl

@[simp] theorem pure_bind_apply (a : α) (f : α → Cmd σ β) (s : σ) : ((pure a : Cmd σ α) >>= f) s = f a s := rfl

@[simp] theorem set_bind_apply (t : σ) (f : PUnit → Cmd σ β) (s : σ) : ((set t : Cmd σ PUnit) >>= f) s = f ⟨⟩ t := rfl

/-- A result computed from a command's result. -/
@[simp] theorem map_apply (f : α → β) (c : Cmd σ α) (s : σ) : (f <$> c) s = (c s).map fun r => (f r.1, r.2) := by
  simp only [Functor.map, StateT.map]
  cases c s with
  | none => rfl
  | some r => rfl

/-! ## Carrying a property -/

/-- From a state with `P`, every outcome of the command has `Q`. -/
def Triple (P : σ → Prop) (c : Cmd σ α) (Q : α → σ → Prop) : Prop :=
  ∀ s a t, P s → c s = some (a, t) → Q a t

/-- A command keeps a property when every outcome from a state with the property has it again. -/
def Keeps (P : σ → Prop) (c : Cmd σ α) : Prop := Triple P c fun _ => P

/-- A triple holds of a sequence when a middle assertion joins its two parts. -/
theorem Triple.bind {M : α → σ → Prop} {Q : β → σ → Prop} {f : α → Cmd σ β}
    (hc : Triple P c M) (hf : ∀ a, Triple (M a) (f a) Q) : Triple P (c >>= f) Q := by
  intro s b t hs h
  obtain ⟨a, m, ha, hb⟩ := bind_eq_some.mp h
  exact hf a m b t (hc s a m hs ha) hb

/-- A returned value leaves the state. -/
theorem Triple.pure (a : α) : Triple P (pure a) fun b s => b = a ∧ P s := by
  rintro s b t hs h
  obtain ⟨rfl, rfl⟩ : a = b ∧ s = t := by simpa using h
  exact ⟨rfl, hs⟩

theorem Triple.mono {P' : σ → Prop} {Q Q' : α → σ → Prop} (h : Triple P c Q)
    (hP : ∀ s, P' s → P s) (hQ : ∀ a s, Q a s → Q' a s) : Triple P' c Q' :=
  fun s a t hs hc => hQ a t (h s a t (hP s hs) hc)

/-- A command that reads the state keeps a property when its body does from every state it can read. -/
theorem Keeps.get {f : σ → Cmd σ β} (h : ∀ s, Triple (fun t => t = s ∧ P t) (f s) fun _ => P) : Keeps P ((get : Cmd σ σ) >>= f) :=
  fun s a t hs hc => h s s a t ⟨rfl, hs⟩ hc

theorem Keeps.pure (a : α) : Keeps P (pure a : Cmd σ α) := (Triple.pure a).mono (fun _ h => h) fun _ _ h => h.2

/-- A sequence keeps what both its parts keep. -/
theorem Keeps.bind {f : α → Cmd σ β} (hc : Keeps P c) (hf : ∀ a, Keeps P (f a)) : Keeps P (c >>= f) :=
  Triple.bind hc hf

theorem Keeps.ite {b : Prop} [Decidable b] {d : Cmd σ α} (hc : b → Keeps P c) (hd : ¬ b → Keeps P d) :
    Keeps P (if b then c else d) := by
  split
  · exact hc ‹_›
  · exact hd ‹_›

theorem Keeps.undef : Keeps P (undef : Cmd σ α) := by
  intro s a t _ h
  cases h

/-- Two commands, the second if the first does not fail, succeed when both do. -/
theorem andThen_true_iff {c d : Cmd σ Bool} {u : σ} : (do if !(← c) then return false
                                                            d : Cmd σ Bool) s = some (true, u) ↔
    ∃ t, c s = some (true, t) ∧ d t = some (true, u) := by
  constructor
  · intro h
    obtain ⟨ok, t, ht, hd⟩ := bind_eq_some.mp h
    cases ok with
    | false => cases hd
    | true => exact ⟨t, ht, hd⟩
  · rintro ⟨t, ht, hd⟩
    exact (bind_of_eq ht).trans hd

/-- A loop over images of items. -/
theorem eachOk_map (f : α → Cmd σ Bool) (g : γ → α) (l : List γ) : Cmd.eachOk f (l.map g) = Cmd.eachOk (fun c => f (g c)) l := by
  induction l with
  | nil => rfl
  | cons c l ih => rw [map_cons, Cmd.eachOk, Cmd.eachOk, ih]

/-- Loops whose bodies do the same wherever something holds that they keep do the same. -/
theorem eachOk_congr {g : α → Cmd σ Bool} (hfg : ∀ a ∈ l, ∀ s, I s → f a s = g a s)
    (hI : ∀ a ∈ l, ∀ s ok t, I s → g a s = some (ok, t) → I t) : ∀ {s : σ}, I s → Cmd.eachOk f l s = Cmd.eachOk g l s := by
  induction l with
  | nil => exact fun _ => rfl
  | cons a l ih =>
    intro s hs
    have hfirst := hfg a mem_cons_self s hs
    rw [Cmd.eachOk, Cmd.eachOk]
    cases hr : g a s with
    | none =>
      rw [hr] at hfirst
      simp [bind, StateT.bind, hr, hfirst]
    | some r =>
      obtain ⟨ok, t⟩ := r
      rw [hr] at hfirst
      rw [bind_of_eq hr, bind_of_eq hfirst]
      cases ok with
      | false => rfl
      | true =>
        show Cmd.eachOk f l t = Cmd.eachOk g l t
        exact ih (fun b hb => hfg b (mem_cons_of_mem a hb)) (fun b hb => hI b (mem_cons_of_mem a hb))
          (hI a mem_cons_self s true t hs hr)

/-- A loop whose body is a loop is one over all its items. -/
theorem eachOk_flatMap (f : α → Cmd σ Bool) (g : γ → List α) (l : List γ) (s : σ) :
    Cmd.eachOk f (l.flatMap g) s = Cmd.eachOk (fun c => Cmd.eachOk f (g c)) l s := by
  induction l generalizing s with
  | nil => rfl
  | cons c l ih =>
    rw [flatMap_cons, eachOk_append, Cmd.eachOk]
    refine congrFun (congrArg (Cmd.eachOk f (g c) >>= ·) (funext fun ok => ?_)) s
    cases ok with
    | false => rfl
    | true => exact funext ih

/-- A loop that succeeds has run its body on each item in turn: what holds of the items before one holds with it. -/
theorem eachOk_of_split {I : List α → σ → Prop}
    (hstep : ∀ before a after s t, l = before ++ a :: after → I before s → f a s = some (true, t) → I (before ++ [a]) t)
    (hs : I [] s) (h : Cmd.eachOk f l s = some (true, t)) : I l t := by
  suffices hrun : ∀ rest before s, l = before ++ rest → I before s → Cmd.eachOk f rest s = some (true, t) → I l t from
    hrun l [] s rfl hs h
  intro rest
  induction rest with
  | nil =>
    intro before s hl hs h
    obtain rfl : s = t := by simpa [Cmd.eachOk] using h
    rwa [hl, append_nil]
  | cons a rest ih =>
    intro before s hl hs h
    obtain ⟨ok, m, hm, hrest⟩ := bind_eq_some.mp h
    cases ok with
    | false => simp at hrest
    | true => exact ih (before ++ [a]) m (by rw [hl, append_assoc]; rfl) (hstep before a rest s m hl hs hm) (by simpa using hrest)

/-- What holds of the items done grows by one with each item of a loop that succeeds. -/
theorem eachOk_of_true {I : List α → σ → Prop}
    (hstep : ∀ done a s t, a ∈ l → I done s → f a s = some (true, t) → I (done ++ [a]) t)
    {done s t} (hs : I done s) (h : Cmd.eachOk f l s = some (true, t)) : I (done ++ l) t := by
  refine eachOk_of_split (I := fun before s => I (done ++ before) s) (fun before a after s t hl hI hf => ?_)
    (by rwa [append_nil]) h
  rw [← append_assoc]
  exact hstep (done ++ before) a s t (hl ▸ mem_append_right _ mem_cons_self) hI hf

/-- What a success of the body says of its item, a loop that succeeds says of all items. -/
theorem forall_of_eachOk {P : α → Prop} (hf : ∀ a s t, f a s = some (true, t) → P a)
    (h : Cmd.eachOk f l s = some (true, t)) : ∀ a ∈ l, P a := by
  refine eachOk_of_true (I := fun (met : List α) (_ : σ) => ∀ a ∈ met, P a) (fun met a s t _ hmet hr b hb => ?_)
    (fun b (hb : b ∈ []) => absurd hb not_mem_nil) h
  rcases mem_append.mp hb with hb | hb
  · exact hmet b hb
  · rw [mem_singleton.mp hb]
    exact hf a s t hr

/-- A loop whose body always returns, with a status that the item decides, succeeds when the body does on each item. -/
theorem eachOk_of_total {p : α → Bool} (hstep : ∀ a ∈ l, ∀ s, I s → ∃ t, f a s = some (p a, t) ∧ I t) :
    ∀ {s}, I s → ∃ t, Cmd.eachOk f l s = some (l.all p, t) ∧ I t := by
  induction l with
  | nil => exact fun {s} hs => ⟨s, rfl, hs⟩
  | cons a l ih =>
    intro s hs
    obtain ⟨t, ht, hI⟩ := hstep a mem_cons_self s hs
    rw [all_cons, Cmd.eachOk, bind_of_eq ht]
    cases hp : p a with
    | false => exact ⟨t, rfl, hI⟩
    | true => exact ih (fun b hb => hstep b (mem_cons_of_mem a hb)) hI

/-- A loop whose body always returns does so too. -/
theorem eachOk_defined (hf : ∀ a ∈ l, ∀ s, ∃ r, f a s = some r) : ∀ s, ∃ r, Cmd.eachOk f l s = some r := by
  induction l with
  | nil => exact fun s => ⟨(true, s), rfl⟩
  | cons a l ih =>
    intro s
    obtain ⟨⟨ok, t⟩, ht⟩ := hf a mem_cons_self s
    rw [Cmd.eachOk, bind_of_eq ht]
    cases ok with
    | false => exact ⟨_, rfl⟩
    | true => exact ih (fun b hb => hf b (mem_cons_of_mem a hb)) t

/-! ## Commands that succeed -/

/-- What a success of a command leaves has a property, and the command does succeed where a condition holds. -/
def Succeeds (p : Prop) (c : Cmd σ Bool) (s : σ) (Q : σ → Prop) : Prop :=
  (∀ t, c s = some (true, t) → Q t) ∧ (p → ∃ t, c s = some (true, t))

section Succeeds

variable {p : Prop} {c d : Cmd σ Bool} {s t : σ} {P Q : σ → Prop}

theorem Succeeds.mono (h : Succeeds p c s P) (hPQ : ∀ t, P t → Q t) : Succeeds p c s Q :=
  ⟨fun t ht => hPQ t (h.1 t ht), h.2⟩

/-- The condition may be stronger. -/
theorem Succeeds.imp {p' : Prop} (h : Succeeds p c s Q) (hp : p' → p) : Succeeds p' c s Q :=
  ⟨h.1, fun hp' => h.2 (hp hp')⟩

theorem Succeeds.of_eq (h : c s = some (true, t)) (ht : Q t) : Succeeds p c s Q := by
  refine ⟨fun u hu => ?_, fun _ => ⟨t, h⟩⟩
  obtain rfl : t = u := (Prod.mk.inj (Option.some.inj (h.symm.trans hu))).2
  exact ht

/-- A run that succeeds, by a check that computes. -/
theorem exists_of_any {q : σ → Bool} (h : (c s).any (fun r => r.1 && q r.2) = true) : ∃ t, c s = some (true, t) ∧ q t = true := by
  obtain ⟨⟨ok, t⟩, ht, hq⟩ := (Option.any_eq_true _ _).mp h
  obtain ⟨rfl, hq⟩ := Bool.and_eq_true_iff.mp hq
  exact ⟨t, ht, hq⟩

/-- A run that succeeds and leaves what can be decided, by a check that computes. -/
theorem exists_of_decide {p : σ → Prop} [DecidablePred p] (h : (c s).any (fun r => r.1 && decide (p r.2)) = true) :
    ∃ t, c s = some (true, t) ∧ p t := by
  obtain ⟨t, ht, hp⟩ := @exists_of_any _ c s (fun t => decide (p t)) h
  exact ⟨t, ht, of_decide_eq_true hp⟩

/-- A command that runs as another does from a state. -/
theorem Succeeds.congr (h : Succeeds p c s Q) (heq : d s = c s) : Succeeds p d s Q := by
  unfold Succeeds
  rwa [heq]

/-- A command after another that succeeded. -/
theorem Succeeds.andThen (hc : Succeeds p c s P) (hd : ∀ m, P m → Succeeds p d m Q) :
    Succeeds p (do if !(← c) then return false
                   d) s Q := by
  refine ⟨fun t ht => ?_, fun hp => ?_⟩
  · obtain ⟨ok, m, hm, hr⟩ := bind_eq_some.mp ht
    cases ok with
    | false => simp at hr
    | true => exact (hd m (hc.1 m hm)).1 t (by simpa using hr)
  · obtain ⟨m, hm⟩ := hc.2 hp
    obtain ⟨t, ht⟩ := (hd m (hc.1 m hm)).2 hp
    exact ⟨t, (bind_of_eq hm).trans ht⟩

end Succeeds

/-- A loop keeps what its body keeps at every item. -/
theorem Keeps.eachOk : ∀ {l : List α}, (∀ a ∈ l, Keeps P (f a)) → Keeps P (eachOk f l)
  | [], _ => Keeps.pure true
  | a :: _, h =>
    Keeps.bind (h a mem_cons_self) fun _ =>
      Keeps.ite (fun _ => Keeps.pure false) fun _ => Keeps.eachOk fun b hb => h b (mem_cons_of_mem a hb)

end Cmd

end Metadef
