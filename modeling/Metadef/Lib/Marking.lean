import Metadef.Lib.Worklist

/-! # Worklists with marks

A queue that an item enters once: what the first item leads to is put behind unless it is marked, and marked. An item may lead to
nothing at all, which ends the search with failure. A search that does not fail marks exactly what can be reached, each item once;
over a finite set of items it ends. -/

namespace Metadef

open List

namespace Marking

open Relation Worklist

variable {ν : Type} {kids : ν → Option (List ν)} {x y : ν}

/-- What has been taken led to what is marked; what is marked can be reached from the start; the queue is what is marked and not
taken. -/
structure Ongoing (kids : ν → Option (List ν)) (start : ν) (taken queue seen : List ν) : Prop where
  split : seen = taken ++ queue
  nodup : seen.Nodup
  start_mem : start ∈ seen
  reached : ∀ y ∈ seen, Reaches kids start y
  closed : ∀ y ∈ taken, ∃ l, kids y = some l ∧ l ⊆ seen

theorem Ongoing.init (kids : ν → Option (List ν)) (start : ν) : Ongoing kids start [] [start] [start] where
  split := rfl
  nodup := nodup_singleton start
  start_mem := mem_singleton.mpr rfl
  reached := fun _ hy => mem_singleton.mp hy ▸ .refl
  closed := fun _ hy => by cases hy

variable [DecidableEq ν]

/-- Marks an item and puts it into the queue, unless it is marked. -/
def enter (s : List ν × List ν) (y : ν) : List ν × List ν := if y ∈ s.2 then s else (s.1 ++ [y], s.2 ++ [y])

/-- The search: what is marked when the queue is empty, nothing inside when it fails, none when it takes more items than a bound. -/
def search (kids : ν → Option (List ν)) : Nat → List ν → List ν → Option (Option (List ν))
  | 0, _, _ => none
  | _ + 1, [], seen => some (some seen)
  | fuel + 1, x :: queue, seen =>
    match kids x with
    | none => some none
    | some l => search kids fuel (l.foldl enter (queue, seen)).1 (l.foldl enter (queue, seen)).2

/-- More fuel changes nothing once the search ends. -/
theorem search_mono {r : Option (List ν)} (d : Nat) : ∀ {fuel : Nat} {queue seen : List ν}, search kids fuel queue seen = some r →
    search kids (fuel + d) queue seen = some r := by
  intro fuel
  induction fuel with
  | zero => exact fun {_ _} hs => by cases hs
  | succ fuel ih =>
    intro queue seen hs
    rw [Nat.succ_add]
    cases queue with
    | nil => exact hs
    | cons x queue =>
      unfold search at hs ⊢
      cases hk : kids x with
      | none =>
        rw [hk] at hs
        exact hs
      | some l =>
        rw [hk] at hs
        exact ih hs

/-- What is entered is the same for the queue and the marks. -/
theorem foldl_enter (l : List ν) : ∀ queue seen : List ν, ∃ new, l.foldl enter (queue, seen) = (queue ++ new, seen ++ new) ∧
    (seen.Nodup → (seen ++ new).Nodup) ∧ new ⊆ l ∧ l ⊆ seen ++ new := by
  induction l with
  | nil => exact fun queue seen => ⟨[], by simp, by simp, nil_subset _, nil_subset _⟩
  | cons y l ih =>
    intro queue seen
    rw [foldl_cons]
    by_cases hy : y ∈ seen
    · obtain ⟨new, heq, hnodup, hnew, hl⟩ := ih queue seen
      refine ⟨new, by rw [enter, if_pos hy, heq], hnodup, fun z hz => mem_cons_of_mem y (hnew hz), ?_⟩
      exact cons_subset.mpr ⟨mem_append_left _ hy, hl⟩
    · obtain ⟨new, heq, hnodup, hnew, hl⟩ := ih (queue ++ [y]) (seen ++ [y])
      refine ⟨y :: new, ?_, fun hs => ?_, cons_subset_cons y hnew, ?_⟩
      · rw [enter, if_neg hy, heq]
        simp
      · have happ : (seen ++ [y]).Nodup := by
          rw [nodup_append]
          refine ⟨hs, nodup_singleton y, fun a ha b hb hab => hy ?_⟩
          obtain rfl := mem_singleton.mp hb
          exact hab ▸ ha
        simpa using hnodup happ
      · rw [append_assoc] at hl
        exact cons_subset.mpr ⟨by simp, hl⟩

/-! ## A search after others -/

/-- What is marked was marked before, or is taken or in the queue; these can be reached from the start, each once. What was marked
before and what is taken led to what is marked. -/
structure Extending (kids : ν → Option (List ν)) (old : List ν) (start : ν) (taken queue seen : List ν) : Prop where
  mem_iff : ∀ y, y ∈ seen ↔ y ∈ old ∨ y ∈ taken ++ queue
  seen_nodup : seen.Nodup
  nodup : (taken ++ queue).Nodup
  start_mem : start ∈ seen
  reached : ∀ y ∈ taken ++ queue, Reaches kids start y
  closed : ∀ y ∈ old ++ taken, ∃ l, kids y = some l ∧ l ⊆ seen

variable {start : ν} {taken queue seen old : List ν} {fuel : Nat}

omit [DecidableEq ν] in
theorem Ongoing.extending (ho : Ongoing kids start taken queue seen) : Extending kids [] start taken queue seen where
  mem_iff y := by rw [ho.split, or_iff_right not_mem_nil]
  seen_nodup := ho.nodup
  nodup := ho.split ▸ ho.nodup
  start_mem := ho.start_mem
  reached y hy := ho.reached y (ho.split ▸ hy)
  closed := ho.closed

/-- The start is put into the queue whether or not it was marked before. -/
theorem Extending.init (hnodup : old.Nodup) (hclosed : ∀ y ∈ old, ∃ l, kids y = some l ∧ l ⊆ old) (start : ν) :
    Extending kids old start [] [start] (old.insert start) where
  mem_iff y := by rw [mem_insert_iff, nil_append, mem_singleton, or_comm]
  seen_nodup := hnodup.insert
  nodup := nodup_singleton start
  start_mem := mem_insert_self
  reached y hy := by
    obtain rfl := mem_singleton.mp hy
    exact .refl
  closed y hy := by
    obtain ⟨l, hl, hsub⟩ := hclosed y (by simpa using hy)
    exact ⟨l, hl, fun z hz => mem_insert_of_mem (hsub hz)⟩

theorem Extending.step {l : List ν} (he : Extending kids old start taken (x :: queue) seen) (hk : kids x = some l) :
    Extending kids old start (taken ++ [x]) (l.foldl enter (queue, seen)).1 (l.foldl enter (queue, seen)).2 := by
  obtain ⟨new, heq, hnodup, hnew, hl⟩ := foldl_enter l queue seen
  rw [heq]
  have hseen := hnodup he.seen_nodup
  have happ : taken ++ [x] ++ (queue ++ new) = taken ++ x :: queue ++ new := by simp
  have hx : x ∈ taken ++ x :: queue := mem_append_right taken mem_cons_self
  refine ⟨fun y => ?_, hseen, ?_, mem_append_left _ he.start_mem, fun y hy => ?_, fun y hy => ?_⟩
  · rw [happ, mem_append, he.mem_iff, mem_append (t := new), or_assoc]
  · rw [happ, nodup_append]
    refine ⟨he.nodup, (nodup_append.mp hseen).2.1, fun a ha b hb => ?_⟩
    exact (nodup_append.mp hseen).2.2 a ((he.mem_iff a).mpr (.inr ha)) b hb
  · rw [happ] at hy
    rcases mem_append.mp hy with hy | hy
    · exact he.reached y hy
    · exact (he.reached x hx).tail ⟨l, hk, hnew hy⟩
  · rw [← append_assoc] at hy
    rcases mem_append.mp hy with hy | hy
    · obtain ⟨k, hk', hsub⟩ := he.closed y hy
      exact ⟨k, hk', fun z hz => mem_append_left _ (hsub hz)⟩
    · obtain rfl := mem_singleton.mp hy
      exact ⟨l, hk, hl⟩

/-- A search that does not fail marks what can be reached besides what was marked, and what is marked leads to nothing else. -/
theorem search_extends : ∀ {taken queue seen out : List ν},
    Extending kids old start taken queue seen → search kids fuel queue seen = some (some out) →
    out.Nodup ∧ (∀ y, y ∈ out ↔ y ∈ old ∨ Reaches kids start y) ∧ ∀ y ∈ out, ∃ l, kids y = some l ∧ l ⊆ out := by
  induction fuel with
  | zero =>
    intro taken queue seen out _ hs
    cases hs
  | succ fuel ih =>
    intro taken queue seen out he hs
    cases queue with
    | nil =>
      obtain rfl : seen = out := Option.some.inj (Option.some.inj hs)
      have hclosed : ∀ y ∈ seen, ∃ l, kids y = some l ∧ l ⊆ seen := fun y hy => he.closed y (by
        rw [mem_append]
        simpa using (he.mem_iff y).mp hy)
      have hmem : ∀ y, Reaches kids start y → y ∈ seen := by
        intro y hy
        induction hy with
        | refl => exact he.start_mem
        | tail _ hstep ihy =>
          obtain ⟨l, hl, hz⟩ := hstep
          obtain ⟨k, hk, hsub⟩ := hclosed _ ihy
          obtain rfl : l = k := Option.some.inj (hl.symm.trans hk)
          exact hsub hz
      refine ⟨he.seen_nodup, fun y => ⟨fun hy => ?_, fun hy => ?_⟩, hclosed⟩
      · exact ((he.mem_iff y).mp hy).imp_right (he.reached y)
      · exact hy.elim (fun hold => (he.mem_iff y).mpr (.inl hold)) (hmem y)
    | cons x queue =>
      unfold search at hs
      cases hk : kids x with
      | none => simp [hk] at hs
      | some l =>
        simp only [hk] at hs
        exact ih (he.step hk) hs

/-- A search fails where it takes an item that leads to nothing at all, and what it takes can be reached. -/
theorem fails_of_search : ∀ {taken queue seen : List ν},
    Extending kids old start taken queue seen → search kids fuel queue seen = some none → ∃ y, Reaches kids start y ∧
      kids y = none := by
  induction fuel with
  | zero =>
    intro taken queue seen _ hs
    cases hs
  | succ fuel ih =>
    intro taken queue seen he hs
    cases queue with
    | nil => cases hs
    | cons x queue =>
      unfold search at hs
      cases hk : kids x with
      | none => exact ⟨x, he.reached x (mem_append_right taken mem_cons_self), hk⟩
      | some l =>
        simp only [hk] at hs
        exact ih (he.step hk) hs

/-- Where all that is reached is among some items, a search ends before it takes more than these. -/
theorem returns_of_extending (items : List ν) (hitems : ∀ y, Reaches kids start y → y ∈ items) (fuel : Nat) :
    ∀ taken queue seen : List ν, Extending kids old start taken queue seen → items.length < taken.length + fuel →
      ∃ r, search kids fuel queue seen = some r := by
  have hbound : ∀ taken queue seen : List ν, Extending kids old start taken queue seen →
      taken.length + queue.length ≤ items.length := by
    intro taken queue seen he
    rw [← length_append]
    exact (subperm_of_subset he.nodup fun y hy => hitems y (he.reached y hy)).length_le
  induction fuel with
  | zero =>
    intro taken queue seen he hlt
    have := hbound taken queue seen he
    omega
  | succ fuel ih =>
    intro taken queue seen he hlt
    cases queue with
    | nil => exact ⟨_, rfl⟩
    | cons x queue =>
      unfold search
      cases hk : kids x with
      | none => exact ⟨_, rfl⟩
      | some l =>
        refine ih (taken ++ [x]) _ _ (he.step hk) ?_
        rw [length_append, length_singleton]
        omega

/-- A search meets only what can be reached, so it does not matter what anything else leads to. -/
theorem search_congr {kids' : ν → Option (List ν)} (hcongr : ∀ y, Reaches kids start y → kids' y = kids y)
    (fuel : Nat) : ∀ {taken queue seen : List ν}, Extending kids old start taken queue seen →
      search kids' fuel queue seen = search kids fuel queue seen := by
  induction fuel with
  | zero => exact fun _ => rfl
  | succ fuel ih =>
    intro taken queue seen he
    cases queue with
    | nil => rfl
    | cons x queue =>
      rw [search, search, hcongr x (he.reached x (mem_append_right taken mem_cons_self))]
      cases hk : kids x with
      | none => rfl
      | some l => exact ih (he.step hk)

/-! ## A first search -/

/-- A search that does not fail marks what can be reached, each item once, and nothing reached fails. -/
theorem of_search {out : List ν} (ho : Ongoing kids start taken queue seen) (hs : search kids fuel queue seen = some (some out)) :
    out.Nodup ∧ (∀ y, y ∈ out ↔ Reaches kids start y) ∧ ∀ y, Reaches kids start y → ∃ l, kids y = some l := by
  obtain ⟨hnodup, hmem, hclosed⟩ := search_extends ho.extending hs
  have hmem' : ∀ y, y ∈ out ↔ Reaches kids start y := fun y => (hmem y).trans (or_iff_right not_mem_nil)
  refine ⟨hnodup, hmem', fun y hy => ?_⟩
  obtain ⟨l, hl, -⟩ := hclosed y ((hmem' y).mpr hy)
  exact ⟨l, hl⟩

/-- A search fails where it takes an item that leads to nothing at all, and what it takes can be reached. -/
theorem of_search_fail (ho : Ongoing kids start taken queue seen)
    (hs : search kids fuel queue seen = some none) : ∃ y, Reaches kids start y ∧ kids y = none :=
  fails_of_search ho.extending hs

/-- Where all that is reached is among some items, the search ends before it takes more than these. -/
theorem search_returns (items : List ν) (hitems : ∀ y, Reaches kids start y → y ∈ items) (fuel : Nat)
    (taken queue seen : List ν) (ho : Ongoing kids start taken queue seen) (hlt : items.length < taken.length + fuel) :
    ∃ r, search kids fuel queue seen = some r :=
  returns_of_extending items hitems fuel taken queue seen ho.extending hlt

end Marking

end Metadef
