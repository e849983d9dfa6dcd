import Metadef.FusionPass

/-!
# Runs of a fusion pass

A run keeps the patterns it built before it looks at whether all of them could be built. Runs after that find patterns and ask no
more: a pass with an invalid pattern fails in its first run only.
-/

namespace Metadef

open Option

namespace PassRunsAux

open FusionPass

section

variable {base : PassBase} {originalType : OpId → String} {streamLabel : OpId → Option String} {byPointer : Mapping → Mapping}
  {fuel : Nat} {σ : Type} {fusion : Mapping → σ × PassGraph → FusionStatus × (σ × PassGraph)} {define kept : PassPatterns} {own : σ}

/-! ## The patterns of a run -/

theorem buildEach_patterns (l : List (Option Nat)) : ∀ (s : PassPatterns) (ok : Bool),
    (PassPatterns.buildEach l s ok).1.patterns = s.patterns := by
  induction l with
  | nil => exact fun _ _ => rfl
  | cons i rest ih =>
    intro s ok
    cases i with
    | none => exact ih s ok
    | some i => exact ih _ _

theorem buildAll_patterns : define.buildAll.1.patterns = define.patterns := buildEach_patterns _ _ _

/-- A pass without patterns has none that cannot be built. -/
theorem patterns_ne_nil (hinvalid : define.buildAll.2 = false) : define.patterns ≠ [] := by
  intro hnil
  rw [PassPatterns.buildAll, hnil] at hinvalid
  cases hinvalid

theorem prepare_new : preparePatterns define {} = define.buildAll := rfl

/-- Patterns that are kept are used as they are. -/
theorem prepare_kept (h : kept.patterns ≠ []) : preparePatterns define kept = (kept, true) := if_neg (by simpa using h)

/-! ## A graph without nodes -/

/-- Nothing is matched in a graph without nodes. -/
theorem matchAll_empty (base : PassBase) (originalType : OpId → String) (streamLabel : OpId → Option String)
    (byPointer : Mapping → Mapping) (fuel : Nat) (p : FusionPattern) :
    base.matchAll originalType streamLabel byPointer fuel {} p = some (false, []) := by
  have h : ∀ accept, PatternFusion.matchAllWith originalType accept fuel {} p = some (false, []) := by
    intro accept
    unfold PatternFusion.matchAllWith
    split
    · rfl
    · exact if_pos rfl
  cases base with
  | patternFusion => exact h _
  | graphFusion => exact h _

/-- Patterns change nothing in a graph without nodes. -/
theorem runPatterns_empty (pattern : Nat → FusionPattern) (l : List (Option Nat)) :
    runPatterns (base.matchAll originalType streamLabel byPointer fuel) fusion pattern l false (own, {}) =
      some (.notChanged, (own, {})) := by
  induction l with
  | nil => rfl
  | cons i rest ih =>
    cases i with
    | none => exact ih
    | some i =>
      have hone : runOnePattern (base.matchAll originalType streamLabel byPointer fuel) fusion (own, {}) (pattern i) =
          some (.success, false, (own, {})) := by
        rw [runOnePattern, matchAll_empty]
        rfl
      rw [runPatterns, hone]
      exact ih

/-! ## Runs -/

/-- The first run fails when a pattern cannot be built, and keeps the patterns. -/
theorem run_first (hinvalid : define.buildAll.2 = false) (g : σ × PassGraph) :
    run (base.matchAll originalType streamLabel byPointer fuel) fusion define {} g = some (.failed, g, define.buildAll.1) := by
  unfold run
  rw [prepare_new]
  simp only [hinvalid, Bool.not_false, if_true]

/-- A run with patterns that are kept on a graph without nodes changes nothing and does not fail. -/
theorem run_empty (h : kept.patterns ≠ []) :
    run (base.matchAll originalType streamLabel byPointer fuel) fusion define kept (own, {}) =
      some (.notChanged, (own, {}), kept) := by
  unfold run
  rw [prepare_kept h]
  change Option.map (fun r : FusionStatus × (σ × PassGraph) => (r.1, r.2, kept)) (runPatterns _ fusion kept.pattern kept.patterns false
    (own, {})) = _
  rw [runPatterns_empty]
  rfl

/-- What a run keeps is what it used. -/
theorem kept_run {g : σ × PassGraph} {r : FusionStatus × (σ × PassGraph) × PassPatterns}
    (h : run (base.matchAll originalType streamLabel byPointer fuel) fusion define kept g = some r) :
    r.2.2 = (preparePatterns define kept).1 := by
  unfold run at h
  generalize preparePatterns define kept = prepared at h ⊢
  obtain ⟨s, ok⟩ := prepared
  cases ok with
  | false =>
    cases h
    rfl
  | true =>
    obtain ⟨_, _, rfl⟩ := map_eq_some_iff.mp h
    rfl

/-- From the first run on, every run uses the patterns that were built then. -/
theorem kept_runAll (gs : List PassGraph) : ∀ {own : σ} {kept : PassPatterns} {rs : List (FusionStatus × PassGraph × PassPatterns)},
    (preparePatterns define kept).1 = define.buildAll.1 →
    runAll (base.matchAll originalType streamLabel byPointer fuel) fusion define gs own kept = some rs →
      ∀ r ∈ rs, r.2.2 = define.buildAll.1 := by
  induction gs with
  | nil =>
    intro own kept rs _ h
    cases h
    exact nofun
  | cons g gs ih =>
    intro own kept rs hkept h
    obtain ⟨r, hr, h⟩ := bind_eq_some_iff.mp h
    obtain ⟨rs', hrs, rfl⟩ := map_eq_some_iff.mp h
    have hused : r.2.2 = define.buildAll.1 := (kept_run hr).trans hkept
    intro r' hr'
    rcases List.mem_cons.mp hr' with rfl | hr'
    · exact hused
    · refine ih ?_ hrs r' hr'
      rw [hused]
      by_cases hnil : define.buildAll.1.patterns = []
      · -- no pattern was defined, and none is defined again
        rw [preparePatterns, if_pos (by simp [hnil])]
      · rw [prepare_kept hnil]

end

end PassRunsAux

open FusionPass PassRunsAux

/-! ## Invalid patterns -/

/-- Runs of a pass one of whose patterns cannot be built fail and leave every graph as it is, on whatever graphs, exactly when there
is no run after the first. All runs of a pass use the patterns of the first. -/
theorem runAll_failed_iff (base : PassBase) (originalType : OpId → String) (streamLabel : OpId → Option String)
    (byPointer : Mapping → Mapping) (fuel : Nat) {σ : Type} (fusion : Mapping → σ × PassGraph → FusionStatus × (σ × PassGraph))
    (define : PassPatterns) (own : σ) :
    (define.buildAll.2 = false → ∀ n, (∀ gs : List PassGraph, gs.length = n →
      (runAll (base.matchAll originalType streamLabel byPointer fuel) fusion define gs own {}).map (List.map fun r => (r.1, r.2.1)) =
        some (gs.map fun g => (.failed, g))) ↔ n ≤ 1) ∧
      ∀ gs rs, runAll (base.matchAll originalType streamLabel byPointer fuel) fusion define gs own {} = some rs →
        ∀ r ∈ rs, r.2.2 = define.buildAll.1 := by
  refine ⟨fun hinvalid n => ⟨fun h => ?_, fun hn gs hgs => ?_⟩, fun gs rs hrs => kept_runAll gs (by rw [prepare_new]) hrs⟩
  · by_contra hn
    obtain ⟨k, rfl⟩ : ∃ k, n = k + 2 := ⟨n - 2, by omega⟩
    have hne : define.buildAll.1.patterns ≠ [] := buildAll_patterns.trans_ne (patterns_ne_nil hinvalid)
    -- the second run, on a graph without nodes, does not fail
    have hall := h (List.replicate (k + 2) {}) (by simp)
    rw [List.replicate_succ, List.replicate_succ, runAll, run_first hinvalid, bind_some, runAll, run_empty hne,
      bind_some, map_map, map_map] at hall
    obtain ⟨rs, -, hrs⟩ := map_eq_some_iff.mp hall
    simp at hrs
  · match gs, hgs with
    | [], _ => rfl
    | [g], _ =>
      rw [runAll, run_first hinvalid]
      rfl
    | _ :: _ :: gs, hgs => simp only [List.length_cons] at hgs; omega

/-! ## A pattern without an output -/

namespace PassRunsWitness

/-- A pass whose one pattern has no output. -/
def define : PassPatterns := { patterns := [some 0] }

/-- A fusion that changes nothing. -/
def fusion (_ : Mapping) (g : Unit × PassGraph) : FusionStatus × (Unit × PassGraph) := (.notChanged, g)

theorem runAll_define : define.buildAll.2 = false ∧ ∀ n, (∀ gs : List PassGraph, gs.length = n →
    (runAll (PassBase.matchAll (fun _ => "") (fun _ => none) id .patternFusion 1) fusion define gs () {}).map
      (List.map fun r => (r.1, r.2.1)) = some (gs.map fun g => (.failed, g))) ↔ n ≤ 1 :=
  ⟨by decide +kernel, (runAll_failed_iff .patternFusion (fun _ => "") (fun _ => none) id 1 fusion define ()).1 (by decide +kernel)⟩

/-- Its second run does not fail. -/
theorem runAll_false : ¬∀ gs : List PassGraph,
    (runAll (PassBase.matchAll (fun _ => "") (fun _ => none) id .patternFusion 1) fusion define gs () {}).map
      (List.map fun r => (r.1, r.2.1)) = some (gs.map fun g => (.failed, g)) := by
  intro h
  have hinvalid : define.buildAll.2 = false := by decide +kernel
  have hall := h [{}, {}]
  rw [runAll, run_first hinvalid, bind_some, runAll, run_empty (by decide +kernel)] at hall
  simp [runAll] at hall

end PassRunsWitness

end Metadef
