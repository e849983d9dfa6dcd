import Metadef.Lemmas.ScopePaths

/-!
# Helpers for `ScopeTree.lean`: what filing an operator does

`LaidOut` says that the scopes are directories: every scope has a path, no two the same, and its father has the path above. One
turn of the loop of `AddNodeToScope` counts the operator and goes down to the next directory, made when it is not there
(`stepDown`); the whole loop puts the operator at the end of its path and counts it at every directory on the way
(`addBelow_spec`).
-/

namespace Metadef

open List Function OrderedMap

namespace Scope

/-- How many operators of a type were counted. -/
def opCount (x : Scope) (opType : String) : Int := (x.opNums.find opType).getD 0

@[simp] theorem opCount_opsNumInc (x : Scope) (opType ty : String) :
    (x.opsNumInc opType).opCount ty = x.opCount ty + if ty = opType then 1 else 0 := by
  unfold opsNumInc opCount
  cases h : x.opNums.find opType with
  | none =>
    simp only [find_assign]
    split
    next hty => simp [hty, h]
    next => simp
  | some n =>
    simp only [find_assign]
    split
    next hty => simp [hty, h]
    next => simp

@[simp] theorem opsNumInc_name (x : Scope) (ty : String) : (x.opsNumInc ty).name = x.name := by
  unfold opsNumInc
  split <;> rfl

@[simp] theorem opsNumInc_fatherScope (x : Scope) (ty : String) : (x.opsNumInc ty).fatherScope = x.fatherScope := by
  unfold opsNumInc
  split <;> rfl

@[simp] theorem opsNumInc_subScopes (x : Scope) (ty : String) : (x.opsNumInc ty).subScopes = x.subScopes := by
  unfold opsNumInc
  split <;> rfl

@[simp] theorem opsNumInc_nodes (x : Scope) (ty : String) : (x.opsNumInc ty).nodes = x.nodes := by
  unfold opsNumInc
  split <;> rfl

@[simp] theorem opsNumInc_allSubScopes (x : Scope) (ty : String) : (x.opsNumInc ty).allSubScopes = x.allSubScopes := by
  unfold opsNumInc
  split <;> rfl

@[simp] theorem addNode_nodes (x : Scope) (n : NodeDef) : (x.addNode n).nodes = x.nodes ++ [n] := rfl

@[simp] theorem opCount_addNode (x : Scope) (n : NodeDef) (ty : String) : (x.addNode n).opCount ty = x.opCount ty := rfl

/-- Counts are positive where there are any. -/
def Counting (x : Scope) : Prop := ∀ ty n, x.opNums.find ty = some n → 0 < n

theorem Counting.opsNumInc {x : Scope} (h : x.Counting) (opType : String) : (x.opsNumInc opType).Counting := by
  intro ty n hn
  unfold Scope.opsNumInc at hn
  cases hf : x.opNums.find opType with
  | none =>
    simp only [hf, find_assign] at hn
    split at hn
    next => cases hn; decide
    next => exact h ty n hn
  | some m =>
    have := h opType m hf
    simp only [hf, find_assign] at hn
    split at hn
    next => cases hn; omega
    next => exact h ty n hn

/-- What the scope answers is its count, or -1 when that is none. -/
theorem Counting.getOpTypeNum_eq {x : Scope} (h : x.Counting) (ty : String) :
    x.getOpTypeNum ty = if x.opCount ty = 0 then -1 else x.opCount ty := by
  unfold getOpTypeNum opCount
  cases hf : x.opNums.find ty with
  | none => rfl
  | some n =>
    have := h ty n hf
    simp only [Option.getD_some]
    rw [if_neg (by omega)]

end Scope

/-! ## Scopes as directories -/

/-- The scopes of a tree are directories, with these paths. -/
structure LaidOut (t : ScopeTree) (path : ScopeId → List String) : Prop where
  root : t.root = 0
  root_lt : 0 < t.next
  root_path : path 0 = []
  fatherless : (t.scope 0).fatherScope = none
  scopes : t.scopes = List.range t.next
  filed : ∀ s < t.next, s ≠ 0 → ∃ f < s, ∃ item, (t.scope s).fatherScope = some f ∧ path s = path f ++ [item] ∧
    (t.scope s).name = dirName (path s) ∧ '/' ∉ item.toList
  apart : ∀ s < t.next, ∀ s' < t.next, path s = path s' → s = s'
  subs : ∀ f < t.next, ∀ name s, (name, s) ∈ (t.scope f).subScopes ↔
    s < t.next ∧ (t.scope s).fatherScope = some f ∧ (t.scope s).name = name
  keys : ∀ f < t.next, ((t.scope f).subScopes.map Prod.fst).Nodup
  blank : ∀ s, t.next ≤ s → t.scope s = {}
  uncached : ∀ s, (t.scope s).allSubScopes = []
  counting : ∀ s, (t.scope s).Counting

namespace ScopeStepsAux

open ScopePathsAux

variable {t t' : ScopeTree} {path path' : ScopeId → List String} {s f cur : ScopeId} {n : NodeDef} {item : String}

theorem legal (h : LaidOut t path) : ∀ s < t.next, ∀ item ∈ path s, '/' ∉ item.toList := by
  intro s
  induction s using Nat.strongRecOn with
  | ind s ih =>
    intro hs item hitem
    by_cases h0 : s = 0
    · rw [h0, h.root_path] at hitem
      cases hitem
    · obtain ⟨f, hf, last, -, hpath, -, hlast⟩ := h.filed s hs h0
      rw [hpath, mem_append, mem_singleton] at hitem
      rcases hitem with hitem | rfl
      · exact ih f hf (Nat.lt_trans hf hs) item hitem
      · exact hlast

/-- The father of a scope is the directory above. -/
theorem father_iff (h : LaidOut t path) (hs : s < t.next) (hf : f < t.next) :
    (t.scope s).fatherScope = some f ↔ ∃ item, path s = path f ++ [item] := by
  by_cases h0 : s = 0
  · rw [h0, h.fatherless, h.root_path]
    simp
  · obtain ⟨g, hg, last, hfather, hpath, -⟩ := h.filed s hs h0
    rw [hfather]
    constructor
    · rintro ⟨⟩
      exact ⟨last, hpath⟩
    · rintro ⟨item, hitem⟩
      obtain ⟨heq, -⟩ := append_inj' (hpath.symm.trans hitem) rfl
      rw [h.apart g (Nat.lt_trans hg hs) f hf heq]

/-- Looking up a directory finds the one with its path. -/
theorem of_getSubScope (h : LaidOut t path) (hf : f < t.next) (hitem : '/' ∉ item.toList)
    (hsub : (t.scope f).getSubScope (dirName (path f ++ [item])) = some s) : s < t.next ∧ path s = path f ++ [item] := by
  obtain ⟨hs, hfather, hname⟩ := (h.subs f hf _ s).mp (mem_of_find hsub)
  refine ⟨hs, ?_⟩
  have h0 : s ≠ 0 := fun h0 => by simp [h0, h.fatherless] at hfather
  obtain ⟨g, -, last, -, -, hdir, -⟩ := h.filed s hs h0
  refine dirName_injective (legal h s hs) (fun i hi => ?_) (hdir.symm.trans hname)
  rcases mem_append.mp hi with hi | hi
  · exact legal h f hf i hi
  · exact mem_singleton.mp hi ▸ hitem

/-- What is not found has no scope. -/
theorem of_getSubScope_none (h : LaidOut t path) (hf : f < t.next)
    (hsub : (t.scope f).getSubScope (dirName (path f ++ [item])) = none) (hs : s < t.next) : path s ≠ path f ++ [item] := by
  intro hpath
  have hfather := (father_iff h hs hf).mpr ⟨item, hpath⟩
  have h0 : s ≠ 0 := fun h0 => by simp [h0, h.fatherless] at hfather
  obtain ⟨-, -, -, -, -, hname, -⟩ := h.filed s hs h0
  have hmem : (dirName (path f ++ [item]), s) ∈ (t.scope f).subScopes :=
    (h.subs f hf _ s).mpr ⟨hs, hfather, hname.trans (by rw [hpath])⟩
  have hnone := lookup_eq_none_iff.mp hsub _ hmem
  simp at hnone

/-- A scope may change what it holds and counts. -/
theorem LaidOut.setScope (h : LaidOut t path) (hs : s < t.next) {x : Scope} (hname : x.name = (t.scope s).name)
    (hfather : x.fatherScope = (t.scope s).fatherScope) (hsubs : x.subScopes = (t.scope s).subScopes)
    (hall : x.allSubScopes = (t.scope s).allSubScopes) (hcount : x.Counting) : LaidOut (t.setScope s x) path := by
  have hn : ∀ r, ((t.setScope s x).scope r).name = (t.scope r).name := by
    intro r
    by_cases hr : r = s
    · simp [ScopeTree.setScope, hr, hname]
    · simp [ScopeTree.setScope, hr]
  have hf : ∀ r, ((t.setScope s x).scope r).fatherScope = (t.scope r).fatherScope := by
    intro r
    by_cases hr : r = s
    · simp [ScopeTree.setScope, hr, hfather]
    · simp [ScopeTree.setScope, hr]
  have hu : ∀ r, ((t.setScope s x).scope r).subScopes = (t.scope r).subScopes := by
    intro r
    by_cases hr : r = s
    · simp [ScopeTree.setScope, hr, hsubs]
    · simp [ScopeTree.setScope, hr]
  refine ⟨h.root, h.root_lt, h.root_path, (hf 0).trans h.fatherless, h.scopes, ?_, h.apart, ?_, ?_, ?_, ?_, ?_⟩
  · intro r hr h0
    rw [hf, hn]
    exact h.filed r hr h0
  · intro g hg name r
    rw [hu, hf, hn]
    exact h.subs g hg name r
  · intro g hg
    rw [hu]
    exact h.keys g hg
  · intro r hr
    have hne : r ≠ s := fun he => absurd hs (by rw [← he]; exact Nat.not_lt.mpr hr)
    simpa [ScopeTree.setScope, hne] using h.blank r hr
  · intro r
    by_cases hr : r = s
    · simpa [ScopeTree.setScope, hr, hall] using h.uncached s
    · simpa [ScopeTree.setScope, hr] using h.uncached r
  · intro r
    by_cases hr : r = s
    · simpa [ScopeTree.setScope, hr] using hcount
    · simpa [ScopeTree.setScope, hr] using h.counting r

/-! ## One step down -/

/-- A new directory below one. -/
theorem LaidOut.grow (h : LaidOut t path) (hf : f < t.next) (hitem : '/' ∉ item.toList)
    (hnew : (t.scope f).getSubScope (dirName (path f ++ [item])) = none) (hroot : t'.root = t.root) (hnext : t'.next = t.next + 1)
    (hscopes : t'.scopes = t.scopes ++ [t.next])
    (hsub : t'.scope t.next = { name := dirName (path f ++ [item]), fatherScope := some f })
    (hfather : t'.scope f =
      { t.scope f with subScopes := (t.scope f).subScopes ++ [(dirName (path f ++ [item]), t.next)] })
    (hrest : ∀ s, s ≠ f → s ≠ t.next → t'.scope s = t.scope s) :
    LaidOut t' (Function.update path t.next (path f ++ [item])) := by
  have hold : ∀ s < t.next, (t'.scope s).name = (t.scope s).name ∧ (t'.scope s).fatherScope = (t.scope s).fatherScope := by
    intro s hs
    by_cases hsf : s = f
    · simp [hsf, hfather]
    · simp [hrest s hsf (Nat.ne_of_lt hs)]
  have hpath : ∀ s < t.next, Function.update path t.next (path f ++ [item]) s = path s :=
    fun s hs => update_of_ne (Nat.ne_of_lt hs) ..
  have hlt : ∀ {s}, s < t'.next → s < t.next ∨ s = t.next := by
    intro s hs
    rw [hnext] at hs
    exact Nat.lt_succ_iff_lt_or_eq.mp hs
  have hlast : t.next < t'.next := by rw [hnext]; exact Nat.lt_succ_self _
  refine ⟨hroot.trans h.root, Nat.lt_trans h.root_lt hlast, (hpath 0 h.root_lt).trans h.root_path,
    (hold 0 h.root_lt).2.trans h.fatherless, by rw [hscopes, h.scopes, hnext, range_succ], ?_, ?_, ?_, ?_, ?_, ?_, ?_⟩
  · intro s hs h0
    rcases hlt hs with hs | rfl
    · obtain ⟨g, hg, last, hrow⟩ := h.filed s hs h0
      rw [hpath s hs, (hold s hs).1, (hold s hs).2]
      exact ⟨g, hg, last, by rw [hpath g (Nat.lt_trans hg hs)]; exact hrow⟩
    · rw [update_self, hsub]
      exact ⟨f, hf, item, rfl, by rw [hpath f hf], rfl, hitem⟩
  · intro s hs s' hs' heq
    rcases hlt hs with hs | rfl <;> rcases hlt hs' with hs' | rfl
    · rw [hpath s hs, hpath s' hs'] at heq
      exact h.apart s hs s' hs' heq
    · rw [hpath s hs, update_self] at heq
      exact absurd heq (of_getSubScope_none h hf hnew hs)
    · rw [hpath s' hs', update_self] at heq
      exact absurd heq.symm (of_getSubScope_none h hf hnew hs')
    · rfl
  · intro g hg name s
    -- a sub scope that was there, and the new one
    have hwas : g < t.next → ((name, s) ∈ (t.scope g).subScopes ↔
        s < t.next ∧ (t'.scope s).fatherScope = some g ∧ (t'.scope s).name = name) := by
      intro hg
      rw [h.subs g hg name s]
      exact and_congr_right fun hs => by rw [(hold s hs).1, (hold s hs).2]
    have hnow : s < t'.next ∧ (t'.scope s).fatherScope = some g ∧ (t'.scope s).name = name ↔
        (s < t.next ∧ (t'.scope s).fatherScope = some g ∧ (t'.scope s).name = name) ∨
          s = t.next ∧ f = g ∧ dirName (path f ++ [item]) = name := by
      constructor
      · rintro ⟨hs, hrow⟩
        rcases hlt hs with hs | rfl
        · exact .inl ⟨hs, hrow⟩
        · rw [hsub] at hrow
          exact .inr ⟨rfl, Option.some.inj hrow.1, hrow.2⟩
      · rintro (⟨hs, hrow⟩ | ⟨rfl, rfl, rfl⟩)
        · exact ⟨Nat.lt_trans hs hlast, hrow⟩
        · exact ⟨hlast, by rw [hsub], by rw [hsub]⟩
    rw [hnow]
    rcases hlt hg with hg | rfl
    · by_cases hgf : g = f
      · subst hgf
        rw [hfather]
        simp only [mem_append, mem_singleton, hwas hg, Prod.mk.injEq, true_and]
        exact or_congr_right ⟨fun ⟨hname, hs⟩ => ⟨hs, hname.symm⟩, fun ⟨hs, hname⟩ => ⟨hname.symm, hs⟩⟩
      · rw [hrest g hgf (Nat.ne_of_lt hg), hwas hg]
        exact ⟨.inl, fun hrow => hrow.elim id fun hrow => absurd hrow.2.1.symm hgf⟩
    · rw [hsub]
      refine ⟨fun hmem => absurd hmem not_mem_nil, ?_⟩
      rintro (⟨hs, hrow, -⟩ | ⟨-, rfl, -⟩)
      · rw [(hold s hs).2] at hrow
        have h0 : s ≠ 0 := fun h0 => by simp [h0, h.fatherless] at hrow
        obtain ⟨g, hg, -, hfather, -⟩ := h.filed s hs h0
        obtain rfl := Option.some.inj (hfather.symm.trans hrow)
        exact absurd (Nat.lt_trans hs hg) (Nat.lt_irrefl _)
      · exact absurd hf (Nat.lt_irrefl _)
  · intro g hg
    rcases hlt hg with hg | rfl
    · by_cases hgf : g = f
      · subst hgf
        rw [hfather, map_append, nodup_append]
        refine ⟨h.keys g hg, by simp, fun name hname name' hname' heq => ?_⟩
        obtain ⟨e, he, rfl⟩ := List.mem_map.mp hname
        rw [map_singleton, mem_singleton] at hname'
        have hnone := lookup_eq_none_iff.mp hnew e he
        simp [heq, hname'] at hnone
      · rw [hrest g hgf (Nat.ne_of_lt hg)]
        exact h.keys g hg
    · rw [hsub]
      exact nodup_nil
  · intro s hs
    have hs' : t.next < s := Nat.lt_of_succ_le (Nat.le_trans (Nat.le_of_eq hnext.symm) hs)
    rw [hrest s (fun he => absurd hf (he ▸ Nat.not_lt.mpr (Nat.le_of_lt hs'))) (Nat.ne_of_gt hs')]
    exact h.blank s (Nat.le_of_lt hs')
  · intro s
    by_cases hsf : s = f
    · simpa [hsf, hfather] using h.uncached f
    · by_cases hsn : s = t.next
      · simp [hsn, hsub]
      · rw [hrest s hsf hsn]
        exact h.uncached s
  · intro s
    by_cases hsf : s = f
    · rw [hsf, hfather]
      exact h.counting f
    · by_cases hsn : s = t.next
      · rw [hsn, hsub]
        exact nofun
      · rw [hrest s hsf hsn]
        exact h.counting s

/-- What a turn of the loop of `AddNodeToScope` that is not the last does: the operator is counted and the next directory
entered. -/
theorem stepDown (h : LaidOut t path) (hcur : cur < t.next) (hitem : '/' ∉ item.toList) {rest : List String} (hrest : rest ≠ []) :
    ∃ sub t' path', ScopeTree.addBelow n (dirName (path cur ++ [item]) :: rest) cur t = ScopeTree.addBelow n rest sub t' ∧
      LaidOut t' path' ∧ sub < t'.next ∧ path' sub = path cur ++ [item] ∧ t.next ≤ t'.next ∧
      (∀ s < t.next, path' s = path s) ∧ (∀ s, (t'.scope s).nodes = (t.scope s).nodes) ∧
      ∀ s ty, (t'.scope s).opCount ty = (t.scope s).opCount ty + if s = cur ∧ ty = n.opType then 1 else 0 := by
  obtain ⟨next, rest, rfl⟩ := exists_cons_of_ne_nil hrest
  generalize ht₁ : t.setScope cur ((t.scope cur).opsNumInc n.opType) = t₁
  have hcur₁ : t₁.scope cur = (t.scope cur).opsNumInc n.opType := by simp [← ht₁, ScopeTree.setScope]
  have hother₁ : ∀ s, s ≠ cur → t₁.scope s = t.scope s := fun s hs => by simp [← ht₁, ScopeTree.setScope, hs]
  have hlaid₁ : LaidOut t₁ path := by
    rw [← ht₁]
    exact LaidOut.setScope h hcur (by simp) (by simp) (by simp) (by simp) ((h.counting cur).opsNumInc n.opType)
  have hnext₁ : t₁.next = t.next := by rw [← ht₁]; rfl
  have hnodes₁ : ∀ s, (t₁.scope s).nodes = (t.scope s).nodes := by
    intro s
    by_cases hs : s = cur
    · simp [hs, hcur₁]
    · rw [hother₁ s hs]
  have hcounts₁ : ∀ s ty,
      (t₁.scope s).opCount ty = (t.scope s).opCount ty + if s = cur ∧ ty = n.opType then 1 else 0 := by
    intro s ty
    by_cases hs : s = cur
    · simp [hs, hcur₁]
    · simp [hother₁ s hs, hs]
  have hstep : ScopeTree.addBelow n (dirName (path cur ++ [item]) :: next :: rest) cur t =
      ((t₁.scope cur).getSubScope (dirName (path cur ++ [item]))).elim
        (let t₂ := t₁.newScope (dirName (path cur ++ [item])) (some cur)
        let t₂ := { t₂ with scopes := t₂.scopes ++ [t₁.next] }
        ScopeTree.addBelow n (next :: rest) t₁.next
          (t₂.setScope cur ((t₂.scope cur).addSubScope (dirName (path cur ++ [item])) t₁.next)))
        fun subScope => ScopeTree.addBelow n (next :: rest) subScope t₁ := by
    rw [ScopeTree.addBelow, ht₁]
    · cases (t₁.scope cur).getSubScope (dirName (path cur ++ [item])) <;> rfl
    · exact List.cons_ne_nil _ _
  rw [hstep]
  cases hsub : (t₁.scope cur).getSubScope (dirName (path cur ++ [item])) with
  | some sub =>
    obtain ⟨hlt, hpath⟩ := of_getSubScope hlaid₁ (hnext₁ ▸ hcur) hitem hsub
    exact ⟨sub, t₁, path, rfl, hlaid₁, hlt, hpath, Nat.le_of_eq hnext₁.symm, fun _ _ => rfl, hnodes₁, hcounts₁⟩
  | none =>
    dsimp only
    have hcur₁' : cur < t₁.next := hnext₁ ▸ hcur
    have hadd : (t₁.scope cur).addSubScope (dirName (path cur ++ [item])) t₁.next =
        { t₁.scope cur with subScopes := (t₁.scope cur).subScopes ++ [(dirName (path cur ++ [item]), t₁.next)] } := by
      have hfilter : (t₁.scope cur).subScopes.filter (fun e => e.1 ≠ dirName (path cur ++ [item])) =
          (t₁.scope cur).subScopes := by
        refine filter_eq_self.mpr fun e he => ?_
        have hnone := lookup_eq_none_iff.mp hsub e he
        exact decide_eq_true fun heq => by simp [heq] at hnone
      rw [Scope.addSubScope, hfilter]
    have hkeep : ((t₁.newScope (dirName (path cur ++ [item])) (some cur)).scope cur) = t₁.scope cur :=
      update_of_ne (Nat.ne_of_lt hcur₁') ..
    rw [hkeep, hadd]
    generalize hx : ({ t₁.scope cur with
      subScopes := (t₁.scope cur).subScopes ++ [(dirName (path cur ++ [item]), t₁.next)] } : Scope) = x
    generalize ht₂ : ScopeTree.setScope _ cur x = t₂
    have hat : t₂.scope cur = x := by rw [← ht₂]; exact update_self ..
    rw [← hx] at hat
    have hnew : t₂.scope t₁.next = { name := dirName (path cur ++ [item]), fatherScope := some cur } := by
      rw [← ht₂]
      exact (update_of_ne (Nat.ne_of_gt hcur₁') _ _).trans (update_self _ _ _)
    have hother : ∀ s, s ≠ cur → s ≠ t₁.next → t₂.scope s = t₁.scope s := by
      intro s hs hsn
      rw [← ht₂]
      exact (update_of_ne hs _ _).trans (update_of_ne hsn _ _)
    have hnext₂ : t₂.next = t₁.next + 1 := by rw [← ht₂]; rfl
    -- what the new scope holds and counts is what is at a pointer not allocated yet
    have hsame : ∀ s, (t₂.scope s).nodes = (t₁.scope s).nodes ∧ (t₂.scope s).opNums = (t₁.scope s).opNums := by
      intro s
      by_cases hs : s = cur
      · rw [hs, hat]
        exact ⟨rfl, rfl⟩
      · by_cases hsn : s = t₁.next
        · rw [hsn, hnew, hlaid₁.blank t₁.next (Nat.le_refl _)]
          exact ⟨rfl, rfl⟩
        · rw [hother s hs hsn]
          exact ⟨rfl, rfl⟩
    refine ⟨t₁.next, t₂, Function.update path t₁.next (path cur ++ [item]), rfl, ?_, ?_, update_self .., ?_, ?_, ?_, ?_⟩
    · exact LaidOut.grow hlaid₁ hcur₁' hitem hsub (by rw [← ht₂]; rfl) hnext₂ (by rw [← ht₂]; rfl) hnew hat hother
    · rw [hnext₂]
      exact Nat.lt_succ_self _
    · rw [hnext₂, hnext₁]
      exact Nat.le_succ _
    · exact fun s hs => update_of_ne (Nat.ne_of_lt (hnext₁ ▸ hs)) ..
    · exact fun s => (hsame s).1.trans (hnodes₁ s)
    · intro s ty
      rw [Scope.opCount, (hsame s).2]
      exact hcounts₁ s ty

/-! ## The whole loop -/

/-- What filing an operator below a directory adds: its directory if it was not there, itself in it, and one to the counts of
the directories between. -/
structure Filed (n : NodeDef) (above dir : List String) (t t' : ScopeTree) (path path' : ScopeId → List String) : Prop where
  laid : LaidOut t' path'
  next_le : t.next ≤ t'.next
  path_eq : ∀ s < t.next, path' s = path s
  found : ∃ s < t'.next, path' s = dir
  nodes : ∀ s < t'.next, (t'.scope s).nodes = (t.scope s).nodes ++ if path' s = dir then [n] else []
  counts : ∀ s < t'.next, ∀ ty, (t'.scope s).opCount ty =
    (t.scope s).opCount ty + if ty = n.opType ∧ above <+: path' s ∧ path' s <+: dir then 1 else 0

/-- A directory on the way down is the one it starts from or lies on the way from the next. -/
theorem on_way_iff {above below dir : List String} : above <+: dir ∧ dir <+: above ++ item :: below ↔
      dir = above ∨ above ++ [item] <+: dir ∧ dir <+: above ++ item :: below := by
  constructor
  · rintro ⟨⟨rest, rfl⟩, hdir⟩
    rcases prefix_cons_iff.mp ((prefix_append_right_inj above).mp hdir) with rfl | ⟨below', rfl, -⟩
    · exact .inl (append_nil above)
    · exact .inr ⟨⟨below', by simp⟩, hdir⟩
  · rintro (rfl | ⟨habove, hdir⟩)
    · exact ⟨prefix_refl dir, prefix_append dir _⟩
    · exact ⟨(prefix_append above [item]).trans habove, hdir⟩

theorem addBelow_spec (n : NodeDef) (last : String) {items : List String} (hitems : ∀ item ∈ items, '/' ∉ item.toList) :
    ∀ {t : ScopeTree} {path : ScopeId → List String} {cur : ScopeId}, LaidOut t path → cur < t.next →
      ∃ path', Filed n (path cur) (path cur ++ items) t
        (ScopeTree.addBelow n (dirsFrom (path cur) items ++ [last]) cur t) path path' := by
  induction items with
  | nil =>
    intro t path cur h hcur
    generalize ht' : ScopeTree.addBelow n (dirsFrom (path cur) [] ++ [last]) cur t = t'
    have ht : t' = t.setScope cur (((t.scope cur).opsNumInc n.opType).addNode n) := ht'.symm
    have hlaid : LaidOut t' path := by
      rw [ht]
      exact LaidOut.setScope h hcur (by simp [Scope.addNode]) (by simp [Scope.addNode]) (by simp [Scope.addNode])
        (by simp [Scope.addNode]) ((h.counting cur).opsNumInc n.opType)
    have hat : t'.scope cur = ((t.scope cur).opsNumInc n.opType).addNode n := by simp [ht, ScopeTree.setScope]
    have hother : ∀ s, s ≠ cur → t'.scope s = t.scope s := fun s hs => by simp [ht, ScopeTree.setScope, hs]
    have hnext : t'.next = t.next := by rw [ht]; rfl
    have hpath : ∀ s < t'.next, path s = path cur → s = cur :=
      fun s hs heq => h.apart s (hnext ▸ hs) cur hcur heq
    rw [append_nil]
    refine ⟨path, hlaid, Nat.le_of_eq hnext.symm, fun _ _ => rfl, ⟨cur, hnext ▸ hcur, rfl⟩, fun s hs => ?_, fun s hs ty => ?_⟩
    · by_cases hsc : s = cur
      · subst hsc
        simp [hat]
      · rw [hother s hsc, if_neg fun heq => hsc (hpath s hs heq), append_nil]
    · have hiff : (path cur <+: path s ∧ path s <+: path cur) ↔ s = cur :=
        ⟨fun hp => hpath s hs (hp.2.eq_of_length_le hp.1.length_le), fun he => by simp [he]⟩
      by_cases hsc : s = cur
      · subst hsc
        simp [hat]
      · simp [hother s hsc, hiff, hsc]
  | cons item items ih =>
    intro t path cur h hcur
    have hrest : dirsFrom (path cur ++ [item]) items ++ [last] ≠ [] := by simp
    obtain ⟨sub, t₁, path₁, hstep, hlaid, hsub, hpath, hle, hold, hnodes, hcounts⟩ :=
      stepDown (n := n) h hcur (hitems item mem_cons_self) hrest
    obtain ⟨path₂, hf⟩ := ih (fun i hi => hitems i (mem_cons_of_mem item hi)) hlaid hsub
    rw [hpath, append_assoc, singleton_append] at hf
    rw [dirsFrom, cons_append, hstep]
    refine ⟨path₂, hf.laid, Nat.le_trans hle hf.next_le, fun s hs => ?_, hf.found, fun s hs => ?_, fun s hs ty => ?_⟩
    · rw [hf.path_eq s (Nat.lt_of_lt_of_le hs hle), hold s hs]
    · rw [hf.nodes s hs, hnodes]
    · have hiff : path₂ s = path cur ↔ s = cur := by
        have hcur₂ : path₂ cur = path cur := by rw [hf.path_eq cur (Nat.lt_of_lt_of_le hcur hle), hold cur hcur]
        refine ⟨fun heq => ?_, fun he => he ▸ hcur₂⟩
        exact hf.laid.apart s hs cur (Nat.lt_of_lt_of_le hcur (Nat.le_trans hle hf.next_le)) (heq.trans hcur₂.symm)
      have hone : s = cur → ¬ path cur ++ [item] <+: path₂ s := by
        rintro hs ⟨rest, hrest⟩
        simp [hiff.mpr hs] at hrest
      rw [hf.counts s hs, hcounts]
      simp only [on_way_iff, hiff]
      by_cases hty : ty = n.opType
      · by_cases hsc : s = cur
        · rw [if_pos ⟨hsc, hty⟩, if_neg fun hway => hone hsc hway.2.1, if_pos ⟨hty, .inl hsc⟩, Int.add_zero]
        · simp [hty, hsc]
      · simp [hty]

end ScopeStepsAux

end Metadef
