import Metadef.Theorems.ScopePasses

/-!
# The top-most scopes

What a pattern matches depends on the sub types below a scope, and a batch writes sub types while it matches. It never reads one it
has written for the same pattern: `Ahead` says that no scope still to be looked at has a scope below it that was found, and the walk
keeps that. So each pattern finds what it matches in the tree the patterns before it left.
-/

namespace Metadef

open List

open Relation ScopeBasePassImpl

namespace ScopeTree

/-- The tree with a sub type given to some scopes. -/
def giveSubType (t : ScopeTree) (found : List ScopeId) (subType : String) : ScopeTree :=
  { t with scope := fun s => if s ∈ found then { t.scope s with subType := subType } else t.scope s }

/-- A tree of operators as passes see it: what a scope keeps of the scopes below it is each of them once. -/
structure Kept (t : ScopeTree) : Prop where
  typed : t.Typed
  once : ∀ s, (t.scope s).allSubScopes.Nodup

end ScopeTree

/-- A pattern matches a scope below the root, and none between the two. -/
def ScopePattern.TopMatch (p : ScopePattern) (t : ScopeTree) (s : ScopeId) : Prop :=
  TransGen t.Sub t.root s ∧ p.matchScope t s = true ∧ ∀ a, TransGen t.Sub t.root a → TransGen t.Sub a s → p.matchScope t a = false

/-- What a batch should do: each pattern finds its top-most matches, each once, and gives them its sub type. -/
inductive FindsTop (order : HashOrder) : List ScopePatternImpl → ScopeTree → ScopeTree → List ScopeId → Prop where
  | nil (t : ScopeTree) : FindsTop order [] t t []
  | cons {p : ScopePatternImpl} {patterns : List ScopePatternImpl} {t t' : ScopeTree} {found rest : List ScopeId}
      (honce : found.Nodup) (htop : ∀ s, s ∈ found ↔ (p.toPattern order).TopMatch t s)
      (hrest : FindsTop order patterns (t.giveSubType found p.subType) t' rest) :
      FindsTop order (p :: patterns) t t' (found ++ rest)

namespace TopScopesAux

open ScopeTreeAux ScopeStepsAux ScopePassAux ScopePatternImpl

variable {order : HashOrder} {t u : ScopeTree} {path : ScopeId → List String} {s d c x : ScopeId}
variable {found stack rest : List ScopeId} {subType : String} {p : ScopePatternImpl}

/-! ## Sub types given -/

theorem giveSubType_scope : (t.giveSubType found subType).scope s =
    { t.scope s with subType := if s ∈ found then subType else (t.scope s).subType } := by
  unfold ScopeTree.giveSubType
  by_cases hs : s ∈ found <;> simp [hs]

theorem sameShape_giveSubType : t.SameShape (t.giveSubType found subType) := by
  refine ⟨rfl, rfl, fun s => ?_⟩
  rw [giveSubType_scope]

theorem giveSubType_nil : t.giveSubType [] subType = t := by simp [ScopeTree.giveSubType]

theorem giveSubType_concat : t.giveSubType (found ++ [s]) subType = (t.giveSubType found subType).setSubType s subType := by
  have hscope : (t.giveSubType (found ++ [s]) subType).scope = ((t.giveSubType found subType).setSubType s subType).scope := by
    funext d
    rw [setSubType_scope, giveSubType_scope, giveSubType_scope]
    by_cases hd : d = s <;> by_cases hmem : d ∈ found <;> simp [hd, hmem]
  exact congrArg (fun f => { t with scope := f }) hscope

variable {found' : List ScopeId} {base : ScopeTree} {fuel : Nat}

/-- It does not matter in which order scopes are given a sub type. -/
theorem giveSubType_perm (h : found.Perm found') : t.giveSubType found subType = t.giveSubType found' subType := by
  unfold ScopeTree.giveSubType
  simp only [h.mem_iff]

theorem kept_giveSubType (h : t.Kept) : (t.giveSubType found subType).Kept := by
  obtain ⟨⟨⟨nodeDefs, hshape⟩, hlists⟩, honce⟩ := h
  have hsame : t.SameShape (t.giveSubType found subType) := sameShape_giveSubType
  refine ⟨⟨⟨nodeDefs, hshape.trans hsame⟩, fun s hne d => ?_⟩, fun s => ?_⟩
  · rw [hsame.sub]
    rw [giveSubType_scope] at hne ⊢
    exact hlists s hne d
  · rw [giveSubType_scope]
    exact honce s

/-! ## What a pattern matches -/

/-- The scopes a pattern asks for are those below a scope, each once. -/
theorem subScopesOf_spec (order : HashOrder) (ht : t.Kept) (hs : s < t.next) :
    (subScopesOf order t s).Nodup ∧ ∀ d, d ∈ subScopesOf order t s ↔ TransGen t.Sub s d := by
  obtain ⟨⟨⟨nodeDefs, hshape⟩, hlists⟩, honce⟩ := ht
  obtain ⟨path, ⟨h, -⟩⟩ := Holds.run nodeDefs
  generalize ScopeTree.addAll nodeDefs = base at h hshape
  unfold subScopesOf ScopeTree.getAllSubScopes
  by_cases hc : (t.scope s).allSubScopes = []
  · rw [hshape.next] at hs
    obtain ⟨l, hl, hnodup, hmem⟩ := descendEach_spec order h hs (Nat.le_refl _)
    rw [if_neg (by simp [hc]), hshape.descendEach, hshape.subsOf, hshape.next, hl, hshape.sub]
    exact ⟨hnodup, hmem⟩
  · rw [if_pos hc]
    exact ⟨honce s, hlists s hc⟩

theorem subScopesOf_giveSubType : subScopesOf order (t.giveSubType found subType) s = subScopesOf order t s := by
  have hshape : t.SameShape (t.giveSubType found subType) := sameShape_giveSubType
  have hcache : ((t.giveSubType found subType).scope s).allSubScopes = (t.scope s).allSubScopes := by rw [giveSubType_scope]
  unfold subScopesOf ScopeTree.getAllSubScopes
  rw [hcache, hshape.descendEach, hshape.subsOf, hshape.next]
  by_cases hc : (t.scope s).allSubScopes = []
  · rw [if_neg (by simp [hc]), if_neg (by simp [hc])]
    cases t.descendEach order t.next (t.subsOf order s) [] <;> rfl
  · rw [if_pos hc, if_pos hc]
    rfl

/-- Sub types given elsewhere than below a scope do not change whether it is matched. -/
theorem matchScope_giveSubType (ht : t.Kept) (hs : s < t.next) (hclear : ∀ w ∈ found, ¬TransGen t.Sub s w) :
    p.matchScope order (t.giveSubType found subType) s = p.matchScope order t s := by
  have hbelow : (subScopesOf order t s).map (t.giveSubType found subType).scope = (subScopesOf order t s).map t.scope := by
    refine map_congr_left fun d hd => ?_
    have hd := ((subScopesOf_spec order ht hs).2 d).mp hd
    have hnot : d ∉ found := fun hmem => hclear d hmem hd
    rw [giveSubType_scope, if_neg hnot]
  unfold ScopePatternImpl.matchScope
  rw [subScopesOf_giveSubType, hbelow, giveSubType_scope]
  rfl

theorem subScopesMatch_perm {f : ScopeFeature} {l l' : List Scope} (h : l.Perm l') : f.subScopesMatch l = f.subScopesMatch l' := by
  unfold ScopeFeature.subScopesMatch
  rw [h.countP_eq, h.any_eq]

/-- Nor does the order in which maps are gone through. -/
theorem matchScope_order (order order' : HashOrder) (ht : t.Kept) (hs : s < t.next) :
    p.matchScope order' t s = p.matchScope order t s := by
  obtain ⟨hnodup, hmem⟩ := subScopesOf_spec order ht hs
  obtain ⟨hnodup', hmem'⟩ := subScopesOf_spec order' ht hs
  have hperm : (subScopesOf order' t s).Perm (subScopesOf order t s) :=
    (perm_ext_iff_of_nodup hnodup' hnodup).mpr fun d => (hmem' d).trans (hmem d).symm
  have hfeature : ∀ f : ScopeFeature, f.matchScope (t.scope s) ((subScopesOf order' t s).map t.scope) =
      f.matchScope (t.scope s) ((subScopesOf order t s).map t.scope) := by
    intro f
    unfold ScopeFeature.matchScope
    rw [subScopesMatch_perm (hperm.map t.scope)]
  unfold ScopePatternImpl.matchScope
  simp only [hfeature]

/-! ## The walk -/

/-- The sub scopes a pattern matches, and those the walk goes into. -/
def matchedSubs (order : HashOrder) (p : ScopePatternImpl) (t : ScopeTree) (s : ScopeId) : List ScopeId :=
  (t.subsOf order s).filter fun d => p.matchScope order t d

def enteredSubs (order : HashOrder) (p : ScopePatternImpl) (t : ScopeTree) (s : ScopeId) : List ScopeId :=
  ((t.subsOf order s).filter fun d => !p.matchScope order t d).reverse

/-- No scope still to be looked at has one below it that was found, or that is still to be looked at. -/
structure Ahead (t : ScopeTree) (found stack : List ScopeId) : Prop where
  once : found.Nodup
  clear : ∀ w ∈ found, ∀ s ∈ stack, ¬t.Below s w
  apart : stack.Pairwise fun a b => ¬t.Below a b ∧ ¬t.Below b a

theorem le_of_below (h : LaidOut t path) (hb : t.Below s d) : s ≤ d := by
  induction hb with
  | refl => exact Nat.le_refl s
  | tail _ hstep ih => exact Nat.le_trans ih (Nat.le_of_lt (sub_gt h hstep).1)

theorem not_below_father (h : LaidOut t path) (hsub : t.Sub c s) : ¬t.Below s c := fun hb =>
  Nat.not_lt.mpr (le_of_below h hb) (sub_gt h hsub).1

/-- What lies above a sub scope lies above its father. -/
theorem below_father (h : LaidOut t path) (hsub : t.Sub c d) (hb : t.Below s d) : d = s ∨ t.Below s c := by
  rcases ReflTransGen.cases_tail hb with heq | ⟨f, hf, hfd⟩
  · exact .inl heq
  · exact .inr (sub_unique h hfd hsub ▸ hf)

theorem not_below_sibling (h : LaidOut t path) (hs : t.Sub c s) (hd : t.Sub c d) (hne : s ≠ d) : ¬t.Below s d := fun hb =>
  (below_father h hd hb).elim (fun heq => hne heq.symm) (not_below_father h hs)

theorem Ahead.found_top (ha : Ahead t found (s :: rest)) : Ahead t (found ++ [s]) rest := by
  obtain ⟨happart, hrest⟩ := pairwise_cons.mp ha.apart
  refine ⟨?_, fun w hw d hd => ?_, hrest⟩
  · rw [nodup_append]
    refine ⟨ha.once, nodup_singleton s, fun w hw d hd heq => ?_⟩
    rw [mem_singleton.mp hd] at heq
    exact ha.clear w hw s mem_cons_self (heq ▸ .refl)
  · rcases mem_append.mp hw with hw | hw
    · exact ha.clear w hw d (mem_cons_of_mem s hd)
    · rw [mem_singleton.mp hw]
      exact (happart d hd).2

/-- One turn of the loop keeps the walk ahead of what it found. -/
theorem Ahead.step (order : HashOrder) (h : LaidOut t path) (m : ScopeId → Bool) (ha : Ahead t found (c :: rest)) :
    Ahead t (found ++ (t.subsOf order c).filter m) (((t.subsOf order c).filter fun d => !m d).reverse ++ rest) := by
  obtain ⟨happart, hrest⟩ := pairwise_cons.mp ha.apart
  have hmatched : ∀ {d}, d ∈ (t.subsOf order c).filter m → t.Sub c d ∧ m d = true := by
    intro d hd
    rw [mem_filter, mem_subsOf] at hd
    exact hd
  have hentered : ∀ {d}, d ∈ ((t.subsOf order c).filter fun d => !m d).reverse → t.Sub c d ∧ m d = false := by
    intro d hd
    rw [mem_reverse, mem_filter, mem_subsOf, Bool.not_eq_true'] at hd
    exact hd
  have hrow : (t.subsOf order c).Nodup := by
    cases hc : t.subsOf order c with
    | nil => exact nodup_nil
    | cons d l =>
      have hd := subsOf_gt order h (s := c) (hc ▸ mem_cons_self)
      rw [← hc]
      exact nodup_subsOf order h (Nat.lt_trans hd.1 hd.2)
  refine ⟨?_, fun w hw s hs hb => ?_, ?_⟩
  · rw [nodup_append]
    refine ⟨ha.once, hrow.filter _, fun w hw d hd heq => ?_⟩
    exact ha.clear w hw c mem_cons_self (heq ▸ .single (hmatched hd).1)
  · rcases mem_append.mp hw with hw | hw
    · rcases mem_append.mp hs with hs | hs
      · exact ha.clear w hw c mem_cons_self (hb.head (hentered hs).1)
      · exact ha.clear w hw s (mem_cons_of_mem c hs) hb
    · obtain ⟨hcw, hm⟩ := hmatched hw
      rcases mem_append.mp hs with hs | hs
      · obtain ⟨hcs, hn⟩ := hentered hs
        refine not_below_sibling h hcs hcw (fun heq => ?_) hb
        rw [heq, hm] at hn
        cases hn
      · rcases below_father h hcw hb with rfl | hb
        · exact (happart w hs).1 (.single hcw)
        · exact (happart s hs).2 hb
  · rw [pairwise_append]
    refine ⟨?_, hrest, fun s hs d hd => ?_⟩
    · refine (nodup_reverse.mpr (hrow.filter _)).pairwise_of_forall_ne fun s hs d hd hne => ?_
      exact ⟨not_below_sibling h (hentered hs).1 (hentered hd).1 hne,
        not_below_sibling h (hentered hd).1 (hentered hs).1 hne.symm⟩
    · have hcs := (hentered hs).1
      refine ⟨fun hb => (happart d hd).1 (hb.head hcs), fun hb => ?_⟩
      rcases below_father h hcs hb with rfl | hb
      · exact (happart s hd).1 (.single hcs)
      · exact (happart d hd).2 hb

/-- Looking at scopes beside each other that have nothing below them that was found. -/
theorem lookAt_foldl (order : HashOrder) (p : ScopePatternImpl) (ht : t.Kept) (earlier : List ScopeId) (subs : List ScopeId)
    (hsubs : ∀ s ∈ subs, s < t.next) (hapart : ∀ s ∈ subs, ∀ d ∈ subs, ¬TransGen t.Sub s d) : ∀ results scopes,
      (∀ s ∈ subs, ∀ w ∈ earlier ++ results, ¬TransGen t.Sub s w) →
      subs.foldl (lookAt (p.toPattern order)) { tree := t.giveSubType (earlier ++ results) p.subType, results, scopes } =
        { tree := t.giveSubType (earlier ++ (results ++ subs.filter fun s => p.matchScope order t s)) p.subType
          results := results ++ subs.filter fun s => p.matchScope order t s
          scopes := (subs.filter fun s => !p.matchScope order t s).reverse ++ scopes } := by
  induction subs with
  | nil => simp
  | cons s subs ih =>
    intro results scopes hclear
    have ih := ih (fun d hd => hsubs d (mem_cons_of_mem s hd))
      fun d hd e he => hapart d (mem_cons_of_mem s hd) e (mem_cons_of_mem s he)
    have hread : (p.toPattern order).matchScope (t.giveSubType (earlier ++ results) p.subType) s = p.matchScope order t s :=
      matchScope_giveSubType ht (hsubs s mem_cons_self) (hclear s mem_cons_self)
    rw [foldl_cons, lookAt, hread]
    cases hm : p.matchScope order t s with
    | true =>
      have hnext := ih (results ++ [s]) scopes fun d hd w hw => by
        rw [← append_assoc] at hw
        rcases mem_append.mp hw with hw | hw
        · exact hclear d (mem_cons_of_mem s hd) w hw
        · rw [mem_singleton.mp hw]
          exact hapart d (mem_cons_of_mem s hd) s mem_cons_self
      rw [← append_assoc, giveSubType_concat] at hnext
      simpa [hm, toPattern] using hnext
    | false =>
      have hnext := ih results (s :: scopes) fun d hd => hclear d (mem_cons_of_mem s hd)
      simpa [hm] using hnext

/-- The loop of `MatchOneScope` finds the scopes matched beside those it goes into. -/
theorem matchLoop_eq (order : HashOrder) (p : ScopePatternImpl) (rest : List ScopeId) (h : LaidOut base path)
    (hb : base.SameShape t) (ht : t.Kept) (earlier : List ScopeId) (fuel : Nat) :
    ∀ {stack out} results, Preordered (enteredSubs order p t) stack out → out.length ≤ fuel →
      (∀ s ∈ stack, s < t.next) → Ahead base (earlier ++ results) (stack ++ rest) →
      matchLoop order (p.toPattern order) fuel
          { tree := t.giveSubType (earlier ++ results) p.subType, results, scopes := stack } =
        some (t.giveSubType (earlier ++ (results ++ out.flatMap (matchedSubs order p t))) p.subType,
          results ++ out.flatMap (matchedSubs order p t)) ∧
      Ahead base (earlier ++ (results ++ out.flatMap (matchedSubs order p t))) rest := by
  induction fuel with
  | zero =>
    intro stack out results hp hfuel _ ha
    obtain rfl : out = [] := length_eq_zero_iff.mp (Nat.le_zero.mp hfuel)
    cases hp
    simpa [matchLoop] using ha
  | succ fuel ih =>
    intro stack out results hp hfuel hlt ha
    cases hp with
    | nil => simpa [matchLoop] using ha
    | @cons c scopes below after hbelow hafter =>
      have hsub : ∀ {s}, s ∈ base.subsOf order c → base.Sub c s := fun {s} hs => (mem_subsOf order).mp hs
      have hfold := lookAt_foldl order p ht earlier (base.subsOf order c)
        (fun s hs => hb.next ▸ (sub_gt h (hsub hs)).2)
        (fun s hs d hd hsd => by
          rw [hb.sub] at hsd
          obtain ⟨e, hse, hed⟩ := TransGen.tail'_iff.mp hsd
          rw [sub_unique h hed (hsub hd)] at hse
          exact not_below_father h (hsub hs) hse)
        results scopes (fun s hs w hw hsw => by
          rw [hb.sub] at hsw
          exact ha.clear w hw c mem_cons_self (hsw.to_reflTransGen.head (hsub hs)))
      have hstep := Ahead.step order h (fun s => p.matchScope order t s) ha
      have hmatched : (base.subsOf order c).filter (fun s => p.matchScope order t s) = matchedSubs order p t c := by
        rw [matchedSubs, hb.subsOf]
      have hentered : ((base.subsOf order c).filter fun s => !p.matchScope order t s).reverse = enteredSubs order p t c := by
        rw [enteredSubs, hb.subsOf]
      rw [hmatched, hentered] at hfold hstep
      have hlen : (below ++ after).length ≤ fuel := by simpa using hfuel
      have hrest := ih (results ++ matchedSubs order p t c) (hbelow.append hafter) hlen
        (fun s hs => by
          rcases mem_append.mp hs with hs | hs
          · rw [← hentered, mem_reverse] at hs
            exact hb.next ▸ (sub_gt h (hsub (mem_of_mem_filter hs))).2
          · exact hlt s (mem_cons_of_mem c hs))
        (by rw [← append_assoc, append_assoc _ scopes rest]; exact hstep)
      have hsubs : (t.giveSubType (earlier ++ results) p.subType).subsOf order = base.subsOf order := by
        rw [(sameShape_giveSubType).subsOf, hb.subsOf]
      rw [matchLoop, hsubs]
      dsimp only
      rw [hfold]
      simpa [flatMap_cons] using hrest

/-! ## One scope -/

/-- From a scope the walk finds itself, or what is matched beside the scopes it goes into. -/
def Finds (order : HashOrder) (p : ScopePatternImpl) (t : ScopeTree) (a s : ScopeId) : Prop :=
  (p.matchScope order t a = true ∧ s = a) ∨ (p.matchScope order t a = false ∧
    ∃ v, ReflTransGen (fun v d => d ∈ enteredSubs order p t v) a v ∧ s ∈ matchedSubs order p t v)

theorem enteredSubs_subperm : (enteredSubs order p t s).Subperm (t.subsOf order s) :=
  (reverse_perm _).subperm.trans filter_sublist.subperm

theorem matchOneScope_eq (h : LaidOut base path) (hb : base.SameShape t) (ht : t.Kept)
    {earlier : List ScopeId} (hlt : s < t.next) (ha : Ahead base earlier (s :: rest)) (hfuel : t.next ≤ fuel) :
    ∃ more, matchOneScope order fuel (p.toPattern order) (t.giveSubType earlier p.subType) s =
        some (t.giveSubType (earlier ++ more) p.subType, more) ∧
      Ahead base (earlier ++ more) rest ∧ ∀ d, d ∈ more ↔ Finds order p t s d := by
  have hread : (p.toPattern order).matchScope (t.giveSubType earlier p.subType) s = p.matchScope order t s :=
    matchScope_giveSubType ht hlt fun w hw hsw => by
      rw [hb.sub] at hsw
      exact ha.clear w hw s mem_cons_self hsw.to_reflTransGen
  unfold matchOneScope
  rw [hread]
  cases hm : p.matchScope order t s with
  | true =>
    refine ⟨[s], ?_, ha.found_top, fun d => by simp [Finds, hm]⟩
    rw [if_pos rfl, giveSubType_concat]
    rfl
  | false =>
    have hkids : ∀ d, (enteredSubs order p t d).Subperm (base.subsOf order d) := fun d => by
      rw [← hb.subsOf]
      exact enteredSubs_subperm
    obtain ⟨out, hp⟩ := exists_preordered order h (fun d => (hkids d).subset) [s]
    have hge : ∀ d ∈ out, s ≤ d := by
      intro d hd
      obtain ⟨r, hr, hreach⟩ := hp.mem_iff.mp hd
      rw [mem_singleton.mp hr] at hreach
      exact le_of_below h (ReflTransGen.mono (fun v d hvd => (mem_subsOf order).mp ((hkids v).subset hvd)) _ _ hreach)
    have hlen := (nodup_preordered order h hkids hp (nodup_singleton s)
      (fun d hd => by rw [mem_singleton.mp hd, ← hb.next]; exact hlt) fun d hd x hx hxs => by
        have hgt := (subsOf_gt order h ((hkids d).subset hx)).1
        rw [mem_singleton.mp hxs] at hgt
        exact absurd (hge d hd) (Nat.not_le.mpr hgt)).2
    have hloop := matchLoop_eq order p rest h hb ht earlier fuel [] hp
      (Nat.le_trans hlen (hb.next ▸ hfuel)) (fun d hd => by rw [mem_singleton.mp hd]; exact hlt)
      (by simpa using ha)
    simp only [append_nil, nil_append] at hloop
    refine ⟨out.flatMap (matchedSubs order p t), ?_, hloop.2, fun d => ?_⟩
    · rw [if_neg (by simp)]
      exact hloop.1
    · rw [mem_flatMap]
      simp [Finds, hm, hp.mem_iff]

/-! ## One pattern -/

/-- The inner loop of `MatchOneBatch` over scopes beside each other. -/
theorem countPattern_foldlM (order : HashOrder) (p : ScopePatternImpl) (h : LaidOut base path)
    (hb : base.SameShape t) (ht : t.Kept) (hfuel : t.next ≤ fuel) (results scopes : List ScopeId)
    (hlt : ∀ s ∈ scopes, s < t.next) :
    ∀ earlier find, Ahead base earlier scopes →
      ∃ more find', scopes.foldlM (countPattern order fuel (p.toPattern order))
          ((t.giveSubType earlier p.subType, results ++ earlier), find) =
        some ((t.giveSubType (earlier ++ more) p.subType, results ++ (earlier ++ more)), find') ∧
      (earlier ++ more).Nodup ∧ (∀ s, s ∈ more ↔ ∃ a ∈ scopes, Finds order p t a s) ∧
      (0 < find' ↔ 0 < find ∨ more ≠ []) := by
  induction scopes with
  | nil => exact fun earlier find ha => ⟨[], find, by simp, by simpa using ha.once, by simp, by simp⟩
  | cons a scopes ih =>
    intro earlier find ha
    obtain ⟨one, hone, ha', hmem⟩ := matchOneScope_eq h hb ht (hlt a mem_cons_self) ha hfuel
    obtain ⟨more, find', hrun, hnodup, hmore, hfind⟩ := ih (fun s hs => hlt s (mem_cons_of_mem a hs)) (earlier ++ one)
      (if one ≠ [] then find + 1 else find) ha'
    refine ⟨one ++ more, find', ?_, by simpa using hnodup, fun s => ?_, ?_⟩
    · rw [foldlM_cons, countPattern, hone]
      simpa using hrun
    · rw [mem_append, hmem, hmore]
      simp
    · rw [hfind]
      by_cases hnone : one = []
      · simp [hnone]
      · simp [hnone]

/-- A way down through scopes that are gone into: none on it is matched. -/
theorem unmatched_above (h : LaidOut base path) (hb : base.SameShape t) {a v : ScopeId}
    (ha : base.Sub base.root a) (hm : p.matchScope order t a = false)
    (hreach : ReflTransGen (fun v d => d ∈ enteredSubs order p t v) a v) :
    ∀ b, TransGen base.Sub base.root b → base.Below b v → p.matchScope order t b = false := by
  induction hreach with
  | refl =>
    intro b hroot hba
    rcases below_father h ha hba with rfl | hb
    · exact hm
    · obtain ⟨e, he, heb⟩ := TransGen.tail'_iff.mp hroot
      exact absurd (hb.trans he) (not_below_father h heb)
  | @tail v d _ hstep ih =>
    intro b hroot hbd
    rw [enteredSubs, mem_reverse, mem_filter, mem_subsOf, hb.sub] at hstep
    rcases below_father h hstep.1 hbd with rfl | hbv
    · simpa using hstep.2
    · exact ih b hroot hbv

/-- What is found from the sub scopes of the root are the top-most matches. -/
theorem finds_iff_topMatch (h : LaidOut base path) (hb : base.SameShape t) :
    (∃ a ∈ base.subsOf order base.root, Finds order p t a s) ↔ (p.toPattern order).TopMatch t s := by
  unfold ScopePattern.TopMatch
  rw [hb.sub, hb.root]
  have hmatched : ∀ {v d}, d ∈ matchedSubs order p t v ↔ base.Sub v d ∧ p.matchScope order t d = true := by
    intro v d
    rw [matchedSubs, mem_filter, mem_subsOf, hb.sub]
  have hentered : ∀ {v d}, d ∈ enteredSubs order p t v ↔ base.Sub v d ∧ p.matchScope order t d = false := by
    intro v d
    rw [enteredSubs, mem_reverse, mem_filter, mem_subsOf, hb.sub, Bool.not_eq_true']
  constructor
  · rintro ⟨a, ha, ⟨hm, rfl⟩ | ⟨hm, v, hreach, hs⟩⟩
    · have ha := (mem_subsOf order).mp ha
      refine ⟨.single ha, hm, fun b hroot hbs => ?_⟩
      obtain ⟨f, hf, hfs⟩ := TransGen.tail'_iff.mp hbs
      obtain ⟨e, he, heb⟩ := TransGen.tail'_iff.mp hroot
      rw [sub_unique h hfs ha] at hf
      exact absurd (hf.trans he) (not_below_father h heb)
    · have ha := (mem_subsOf order).mp ha
      obtain ⟨hvs, hms⟩ := hmatched.mp hs
      have hav : base.Below a v := ReflTransGen.mono (fun v d hd => (hentered.mp hd).1) _ _ hreach
      refine ⟨TransGen.tail'_iff.mpr ⟨v, hav.head ha, hvs⟩, hms, fun b hroot hbs => ?_⟩
      obtain ⟨f, hf, hfs⟩ := TransGen.tail'_iff.mp hbs
      rw [sub_unique h hfs hvs] at hf
      exact unmatched_above h hb ha hm hreach b hroot hf
  · rintro ⟨hroot, hm, habove⟩
    -- the scopes on the way down to a scope below unmatched ones are gone into
    have hway : ∀ d, TransGen base.Sub base.root d →
        (∀ b, TransGen base.Sub base.root b → TransGen base.Sub b d → p.matchScope order t b = false) →
        base.Sub base.root d ∨ ∃ a, base.Sub base.root a ∧ p.matchScope order t a = false ∧
          ∃ v, ReflTransGen (fun v d => d ∈ enteredSubs order p t v) a v ∧ base.Sub v d := by
      intro d hd
      induction hd with
      | single hd => exact fun _ => .inl hd
      | @tail v d hv hvd ih =>
        intro habove
        have hmv := habove v hv (.single hvd)
        rcases ih fun b hb hbv => habove b hb (hbv.tail hvd) with hroot | ⟨a, ha, hma, w, hw, hwv⟩
        · exact .inr ⟨v, hroot, hmv, v, .refl, hvd⟩
        · exact .inr ⟨a, ha, hma, v, hw.tail (hentered.mpr ⟨hwv, hmv⟩), hvd⟩
    rcases hway s hroot habove with hroot | ⟨a, ha, hma, v, hv, hvs⟩
    · exact ⟨s, (mem_subsOf order).mpr hroot, .inl ⟨hm, rfl⟩⟩
    · exact ⟨a, (mem_subsOf order).mpr ha, .inr ⟨hma, v, hv, hmatched.mpr ⟨hvs, hm⟩⟩⟩

theorem ahead_root (h : LaidOut t path) : Ahead t [] (t.subsOf order t.root) := by
  have hroot : t.root < t.next := h.root.symm ▸ h.root_lt
  refine ⟨nodup_nil, nofun, (nodup_subsOf order h hroot).pairwise_of_forall_ne fun s hs d hd hne => ?_⟩
  have hs := (mem_subsOf order).mp hs
  have hd := (mem_subsOf order).mp hd
  exact ⟨not_below_sibling h hs hd hne, not_below_sibling h hd hs hne.symm⟩

/-! ## The batch -/

/-- The outer loop of `MatchOneBatch`. -/
theorem countPattern_batch (order : HashOrder) (h : LaidOut base path) (hfuel : base.next ≤ fuel)
    (patterns : List ScopePatternImpl) : ∀ (t : ScopeTree) (results : List ScopeId) (find : Nat), base.SameShape t → t.Kept →
      ∃ t' found find', (patterns.map (·.toPattern order)).foldlM (fun st pattern =>
          (base.subsOf order base.root).foldlM (countPattern order fuel pattern) st) ((t, results), find) =
        some ((t', results ++ found), find') ∧ FindsTop order patterns t t' found ∧ (0 < find' ↔ 0 < find ∨ found ≠ []) := by
  induction patterns with
  | nil => exact fun t results find _ _ => ⟨t, [], find, by simp, .nil t, by simp⟩
  | cons p patterns ih =>
    intro t results find hb ht
    obtain ⟨one, find₁, hone, hnodup, hmem, hfind₁⟩ := countPattern_foldlM order p h hb ht
      (hb.next ▸ hfuel) results (base.subsOf order base.root) (fun s hs => hb.next ▸ (subsOf_gt order h hs).2) [] find
      (ahead_root h)
    rw [append_nil, nil_append, giveSubType_nil] at hone
    rw [nil_append] at hnodup
    have hnext : base.SameShape (t.giveSubType one p.subType) := hb.trans sameShape_giveSubType
    obtain ⟨t', rest, find', hrest, htop, hfind'⟩ := ih (t.giveSubType one p.subType) (results ++ one) find₁ hnext
      (kept_giveSubType ht)
    refine ⟨t', one ++ rest, find', ?_, .cons hnodup (fun s => (hmem s).trans (finds_iff_topMatch h hb)) htop, ?_⟩
    · rw [map_cons, foldlM_cons, hone]
      simpa using hrest
    · rw [hfind', hfind₁]
      simp [or_assoc, imp_iff_not_or]

/-- What a batch should do does not depend on the order in which maps are gone through. -/
theorem findsTop_unique {order' : HashOrder} {patterns : List ScopePatternImpl} {t' u' : ScopeTree}
    (hf : FindsTop order patterns t t' found) : t.Kept → FindsTop order' patterns t u' found' → u' = t' ∧ found'.Perm found := by
  induction hf generalizing found' with
  | nil t =>
    intro _ hf'
    cases hf'
    exact ⟨rfl, .nil⟩
  | @cons p patterns t t' found rest honce htop _ ih =>
    intro ht hf'
    cases hf' with
    | @cons _ _ _ _ found' rest' honce' htop' hrest' =>
      have hlt : ∀ {a}, TransGen t.Sub t.root a → a < t.next := by
        obtain ⟨⟨⟨nodeDefs, hshape⟩, -⟩, -⟩ := ht
        obtain ⟨path, ⟨h, -⟩⟩ := Holds.run nodeDefs
        intro a ha
        rw [hshape.sub] at ha
        obtain ⟨f, -, hfa⟩ := TransGen.tail'_iff.mp ha
        exact hshape.next ▸ (sub_gt h hfa).2
      have hsame : ∀ s, (p.toPattern order').TopMatch t s ↔ (p.toPattern order).TopMatch t s := by
        intro s
        unfold ScopePattern.TopMatch toPattern
        refine and_congr_right fun hs => ?_
        dsimp only
        rw [matchScope_order order order' ht (hlt hs)]
        refine and_congr_right fun _ => forall_congr' fun a => imp_congr_right fun ha => ?_
        rw [matchScope_order order order' ht (hlt ha)]
      have hperm : found'.Perm found :=
        (perm_ext_iff_of_nodup honce' honce).mpr fun s => (htop' s).trans ((hsame s).trans (htop s).symm)
      rw [giveSubType_perm hperm] at hrest'
      obtain ⟨rfl, hrest⟩ := ih (kept_giveSubType ht) hrest'
      exact ⟨rfl, hperm.append hrest⟩

theorem matchBatch_eq (order : HashOrder) (ht : t.Kept) (patterns : List ScopePatternImpl) (hfuel : t.next ≤ fuel) :
    ∃ t' found, matchBatch order fuel (patterns.map (·.toPattern order)) t = some ((t', found), decide (found ≠ [])) ∧
      FindsTop order patterns t t' found := by
  have hkept := ht
  obtain ⟨⟨⟨nodeDefs, hshape⟩, -⟩, -⟩ := ht
  obtain ⟨path, ⟨h, -⟩⟩ := Holds.run nodeDefs
  generalize ScopeTree.addAll nodeDefs = base at h hshape
  obtain ⟨t', found, find, hrun, htop, hfind⟩ := countPattern_batch order h (hshape.next ▸ hfuel) patterns t [] 0
    hshape hkept
  refine ⟨t', found, ?_, htop⟩
  have hdecide : decide (0 < find) = decide (found ≠ []) := by simp [hfind]
  rw [matchBatch, hshape.subsOf, hshape.root, hrun, ← hdecide]
  rfl

/-- The count is kept beside what is found. -/
theorem matchOneBatch_eq (patterns : List ScopePattern) (fuel : Nat) (t : ScopeTree) :
    matchOneBatch order fuel patterns t = (matchBatch order fuel patterns t).map Prod.fst := by
  have hinner : ∀ (pattern : ScopePattern) (scopes : List ScopeId) st,
      scopes.foldlM (matchPattern order fuel pattern) st.1 =
        (scopes.foldlM (countPattern order fuel pattern) st).map Prod.fst := by
    intro pattern scopes
    induction scopes with
    | nil => exact fun _ => rfl
    | cons s scopes ih =>
      intro st
      rw [foldlM_cons, foldlM_cons, matchPattern, countPattern]
      cases matchOneScope order fuel pattern st.1.1 s with
      | none => rfl
      | some r => exact ih ((r.1, st.1.2 ++ r.2), if r.2 ≠ [] then st.2 + 1 else st.2)
  have houter : ∀ st : (ScopeTree × List ScopeId) × Nat,
      patterns.foldlM (fun st pattern => (t.subsOf order t.root).foldlM (matchPattern order fuel pattern) st) st.1 =
        (patterns.foldlM (fun st pattern => (t.subsOf order t.root).foldlM (countPattern order fuel pattern) st) st).map
          Prod.fst := by
    induction patterns with
    | nil => exact fun _ => rfl
    | cons pattern patterns ih =>
      intro st
      rw [foldlM_cons, foldlM_cons, hinner]
      cases (t.subsOf order t.root).foldlM (countPattern order fuel pattern) st with
      | none => rfl
      | some r => exact ih r
  rw [matchOneBatch, matchBatch, Option.map_map]
  exact houter ((t, []), 0)

end TopScopesAux

open TopScopesAux in
/-- A batch finds, pattern by pattern, the top-most scopes below the root that the pattern matches in the tree left by those before
it, each once, and gives exactly them its sub type; it returns whether there are any. Whatever the order in which maps are gone
through, the tree is the same in the end, and so are the scopes found. -/
theorem matchBatch_findsTop (order : HashOrder) (t : ScopeTree) (ht : t.Kept) (patterns : List ScopePatternImpl) (fuel : Nat)
    (hfuel : t.next ≤ fuel) :
    ∃ t' found, matchOneBatch order fuel (patterns.map (·.toPattern order)) t = some (t', found) ∧
      matchBatch order fuel (patterns.map (·.toPattern order)) t = some ((t', found), decide (found ≠ [])) ∧
      FindsTop order patterns t t' found ∧
      ∀ order', ∃ found', matchBatch order' fuel (patterns.map (·.toPattern order')) t =
        some ((t', found'), decide (found' ≠ [])) ∧ found'.Perm found := by
  obtain ⟨t', found, hrun, htop⟩ := matchBatch_eq order ht patterns hfuel
  refine ⟨t', found, ?_, hrun, htop, fun order' => ?_⟩
  · rw [matchOneBatch_eq]
    exact congrArg (Option.map Prod.fst) hrun
  · obtain ⟨u', found', hrun', htop'⟩ := matchBatch_eq order' ht patterns hfuel
    obtain ⟨rfl, hperm⟩ := findsTop_unique htop ht htop'
    exact ⟨found', hrun', hperm⟩

namespace TopScopesWitness

/-- An operator two directories down. -/
def nested : ScopeTree := ScopeTree.addAll [some { ptr := 0, name := "a/b/x", opType := "Relu" }]

/-- The second pattern asks for a sub type that the first gives. -/
def batch : List ScopePatternImpl :=
  [{ subType := "inner", nodeOptypeFeatures := [{ nodeType := "Relu", num := 1 }]
     scopesFeatures := [{ subType := "", num := 0, suffix := "b" }] },
   { subType := "outer", scopesFeatures := [{ subType := "inner", num := 1 }] }]

theorem kept_nested : nested.Kept := by
  obtain ⟨path, ⟨h, -⟩⟩ := ScopeTreeAux.Holds.run [some { ptr := 0, name := "a/b/x", opType := "Relu" }]
  refine ⟨⟨⟨_, .refl _⟩, fun s hne => absurd (h.uncached s) hne⟩, fun s => ?_⟩
  rw [nested, h.uncached s]
  exact nodup_nil

theorem matchBatch_findsTop_nested :
    ∃ t', matchBatch ScopePassWitness.inEntryOrder 3 (batch.map (·.toPattern ScopePassWitness.inEntryOrder)) nested =
        some ((t', [2, 1]), true) ∧ FindsTop ScopePassWitness.inEntryOrder batch nested t' [2, 1] := by
  have hrun : (matchBatch ScopePassWitness.inEntryOrder 3 (batch.map (·.toPattern ScopePassWitness.inEntryOrder)) nested).map
      (fun r => r.1.2) = some [2, 1] := by decide +kernel
  obtain ⟨t', found, -, heq, htop, -⟩ := matchBatch_findsTop ScopePassWitness.inEntryOrder nested kept_nested batch 3
    (by decide +kernel)
  rw [heq] at hrun
  obtain rfl : found = [2, 1] := Option.some.inj hrun
  exact ⟨t', heq, htop⟩

end TopScopesWitness

end Metadef
