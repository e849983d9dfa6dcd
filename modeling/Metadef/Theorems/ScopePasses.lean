import Metadef.ScopePass
import Metadef.Theorems.ScopeTree

/-!
# Passes that do not fuse

Sub types are written while scopes are matched. What a pass writes it takes back by emptying, so a pass that does not fuse leaves
no trace only where the scopes it emptied had no sub type before.
-/

namespace Metadef

open List Option Run

open Relation ScopeBasePassImpl

namespace ScopeTree

/-- A tree with other sub types, and other lists kept of what lies below. -/
structure SameShape (t t' : ScopeTree) : Prop where
  next : t'.next = t.next
  root : t'.root = t.root
  scope : ∀ s, t'.scope s = { t.scope s with subType := (t'.scope s).subType, allSubScopes := (t'.scope s).allSubScopes }

/-- A list that is kept of what lies below a scope is right. -/
def ListsRight (t : ScopeTree) : Prop :=
  ∀ s, (t.scope s).allSubScopes ≠ [] → ∀ d, d ∈ (t.scope s).allSubScopes ↔ TransGen t.Sub s d

/-- A tree of operators, with the sub types and the lists that earlier passes left. -/
structure Typed (t : ScopeTree) : Prop where
  built : ∃ nodeDefs, SameShape (addAll nodeDefs) t
  lists : t.ListsRight

end ScopeTree

namespace ScopeBasePassImpl

variable (order : HashOrder) (fuel : Nat)

/-- The scopes a group matches had no sub type in the tree given, nor had any below those its last batch matches. -/
def MatchesBare (t : ScopeTree) (st : ScopeTree × List ScopeId) (group : List (List ScopePattern)) : Prop :=
  ∀ r, matchBatches order fuel group { tree := st.1 } = some r →
    (∀ s ∈ r.tmpResults, (t.scope s).subType = "") ∧ ∀ s ∈ r.lastResults, ∀ d, t.Below s d → (t.scope d).subType = ""

/-- A group does not match a scope. -/
def PassesBy (s : ScopeId) (st : ScopeTree × List ScopeId) (group : List (List ScopePattern)) : Prop :=
  ∀ r, matchBatches order fuel group { tree := st.1 } = some r → s ∉ r.tmpResults ∧ s ∉ r.lastResults

/-- The earlier batches of a group match no result of the groups before, unless its last batch does. -/
def SparesResults (st : ScopeTree × List ScopeId) (group : List (List ScopePattern)) : Prop :=
  ∀ r, matchBatches order fuel group { tree := st.1 } = some r → ∀ s ∈ r.tmpResults, s ∈ st.2 → s ∈ r.lastResults

end ScopeBasePassImpl

namespace ScopeTree

variable {order : HashOrder} {t u v : ScopeTree}

/-! ## Shapes -/

theorem SameShape.refl (t : ScopeTree) : t.SameShape t := ⟨rfl, rfl, fun _ => rfl⟩

theorem SameShape.trans (h : t.SameShape u) (h' : u.SameShape v) : t.SameShape v := by
  refine ⟨h'.next.trans h.next, h'.root.trans h.root, fun s => ?_⟩
  rw [h'.scope s, h.scope s]

theorem SameShape.name (h : t.SameShape u) (s : ScopeId) : (u.scope s).name = (t.scope s).name := by
  rw [h.scope s]

theorem SameShape.subsOf (h : t.SameShape u) : u.subsOf order = t.subsOf order := by
  funext s
  unfold ScopeTree.subsOf
  rw [h.scope s]

theorem SameShape.sub (h : t.SameShape u) : u.Sub = t.Sub := by
  funext s d
  unfold ScopeTree.Sub
  rw [h.scope s]

theorem SameShape.below (h : t.SameShape u) : u.Below = t.Below := by
  funext s d
  unfold ScopeTree.Below
  rw [h.sub]

theorem SameShape.descend (hu : t.SameShape u) (fuel : Nat) (stack all : List ScopeId) :
    u.descend order fuel stack all = t.descend order fuel stack all := by
  induction fuel generalizing stack all with
  | zero => cases stack <;> rfl
  | succ fuel ih =>
    cases stack with
    | nil => rfl
    | cons a stack => rw [ScopeTree.descend, ScopeTree.descend, ih, hu.subsOf]

theorem SameShape.descendEach (hu : t.SameShape u) (fuel : Nat) (scopes all : List ScopeId) :
    u.descendEach order fuel scopes all = t.descendEach order fuel scopes all := by
  induction scopes generalizing all with
  | nil => rfl
  | cons a scopes ih =>
    rw [ScopeTree.descendEach, ScopeTree.descendEach, hu.descend]
    exact bind_congr ih

end ScopeTree

namespace ScopePassAux

open ScopeTreeAux ScopeStepsAux ScopePathsAux ScopeTree

variable {order : HashOrder} {fuel : Nat} {t u v : ScopeTree} {path : ScopeId → List String} {s d r : ScopeId}
variable {patterns : List ScopePattern} {found found' : List ScopeId} {x : String}

/-! ## Sub types -/

theorem setSubType_scope (t : ScopeTree) (s : ScopeId) (x : String) (d : ScopeId) :
    (t.setSubType s x).scope d = { t.scope d with subType := if d = s then x else (t.scope d).subType } := by
  unfold ScopeTree.setSubType ScopeTree.setScope
  by_cases hd : d = s
  · subst hd
    simp
  · simp [hd]

theorem sameShape_setSubType (t : ScopeTree) (s : ScopeId) (x : String) : t.SameShape (t.setSubType s x) := by
  refine ⟨rfl, rfl, fun d => ?_⟩
  rw [setSubType_scope]

/-- Emptying the sub types of scopes. -/
theorem empty_scope (l : List ScopeId) : ∀ t : ScopeTree, ∀ d, (l.foldl (fun t sub => t.setSubType sub "") t).scope d =
    { t.scope d with subType := if d ∈ l then "" else (t.scope d).subType } := by
  induction l with
  | nil => exact fun t d => by simp
  | cons a l ih =>
    intro t d
    rw [foldl_cons, ih, setSubType_scope]
    by_cases hd : d = a
    · simp [hd]
    · simp [hd]

theorem sameShape_empty (l : List ScopeId) (t : ScopeTree) : t.SameShape (l.foldl (fun t sub => t.setSubType sub "") t) := by
  induction l generalizing t with
  | nil => exact .refl t
  | cons a l ih => exact (sameShape_setSubType t a "").trans (ih _)

/-! ## Matching -/

/-- What matching patterns leaves: the scopes found have the sub type of a pattern that matched them, the others theirs. -/
structure Matched (patterns : List ScopePattern) (t t' : ScopeTree) (found : List ScopeId) : Prop where
  shape : t.SameShape t'
  lists : ∀ s, (t'.scope s).allSubScopes = (t.scope s).allSubScopes
  others : ∀ s, s ∉ found → (t'.scope s).subType = (t.scope s).subType
  found : ∀ s ∈ found, ∃ p ∈ patterns, (∃ u, t.SameShape u ∧ p.matchScope u s = true) ∧ (t'.scope s).subType = p.subType

theorem Matched.none (patterns : List ScopePattern) (t : ScopeTree) : Matched patterns t t [] :=
  ⟨.refl t, fun _ => rfl, fun _ _ => rfl, nofun⟩

variable {p : ScopePattern} {group : List (List ScopePattern)} {st : GroupState}
  {all l : List ScopeId} {fuel fuel' : Nat} {groups : List (List (List ScopePattern))}

theorem Matched.one (hp : p ∈ patterns) (hm : p.matchScope t s = true) : Matched patterns t (t.setSubType s p.subType) [s] := by
  refine ⟨sameShape_setSubType t s _, fun d => by rw [setSubType_scope], fun d hd => ?_, fun d hd => ?_⟩
  · rw [setSubType_scope]
    simp [mem_singleton.not.mp hd]
  · obtain rfl := mem_singleton.mp hd
    exact ⟨p, hp, ⟨t, .refl t, hm⟩, by simp [setSubType_scope]⟩

theorem Matched.trans (h : Matched patterns t u found) (h' : Matched patterns u v found') :
    Matched patterns t v (found ++ found') := by
  refine ⟨h.shape.trans h'.shape, fun s => (h'.lists s).trans (h.lists s), fun s hs => ?_, fun s hs => ?_⟩
  · rw [mem_append, not_or] at hs
    exact (h'.others s hs.2).trans (h.others s hs.1)
  · by_cases hs' : s ∈ found'
    · obtain ⟨p, hp, ⟨w, hw, hm⟩, hx⟩ := h'.found s hs'
      exact ⟨p, hp, ⟨w, h.shape.trans hw, hm⟩, hx⟩
    · obtain ⟨p, hp, hm, hx⟩ := h.found s ((mem_append.mp hs).resolve_right hs')
      exact ⟨p, hp, hm, (h'.others s hs').trans hx⟩

/-- Looking at sub scopes one after the other. -/
theorem matched_lookAt (hp : p ∈ patterns) (subs : List ScopeId) : ∀ {m m' : MatchState},
    subs.foldl (lookAt p) m = m' → ∃ more, m'.results = m.results ++ more ∧ more ⊆ subs ∧
      Matched patterns m.tree m'.tree more ∧ m'.scopes ⊆ subs ++ m.scopes := by
  induction subs with
  | nil =>
    rintro st _ rfl
    exact ⟨[], by simp, by simp, .none patterns st.tree, by simp⟩
  | cons a subs ih =>
    intro st st' hst
    rw [foldl_cons] at hst
    obtain ⟨more, hresults, hsub, hmatched, hscopes⟩ := ih hst
    by_cases hm : p.matchScope st.tree a = true
    · rw [lookAt, if_pos hm] at hresults hmatched hscopes
      refine ⟨a :: more, by rw [hresults]; simp, cons_subset_cons a hsub, ?_, fun s hs => ?_⟩
      · exact (Matched.one hp hm).trans hmatched
      · exact mem_cons_of_mem a (hscopes hs)
    · rw [lookAt, if_neg hm] at hresults hmatched hscopes
      refine ⟨more, hresults, fun s hs => mem_cons_of_mem a (hsub hs), hmatched, fun s hs => ?_⟩
      have hs := hscopes hs
      simp only [mem_append, mem_cons] at hs ⊢
      rcases hs with hs | hs | hs
      · exact .inl (.inr hs)
      · exact .inl (.inl hs)
      · exact .inr hs

/-- Scopes of a tree other than its root. -/
def Proper (t : ScopeTree) (found : List ScopeId) : Prop := ∀ s ∈ found, s < t.next ∧ s ≠ 0

theorem proper_subsOf (h : LaidOut t path) : Proper t (t.subsOf order s) := by
  intro d hd
  obtain ⟨hsd, hd⟩ := subsOf_gt order h (s := s) hd
  exact ⟨hd, Nat.ne_of_gt (Nat.lt_of_le_of_lt (Nat.zero_le s) hsd)⟩

/-- The loop of `MatchOneScope` over a stack of scopes of the tree. -/
theorem matched_loop (h : LaidOut t path) (hp : p ∈ patterns) (fuel : Nat) :
    ∀ {m : MatchState}, t.SameShape m.tree → (∀ s ∈ m.scopes, s < t.next) →
      matchLoop order p fuel m = some (u, found) →
      ∃ more, found = m.results ++ more ∧ Proper t more ∧ Matched patterns m.tree u more := by
  induction fuel with
  | zero =>
    intro st _ _ hr
    unfold matchLoop at hr
    split at hr
    · obtain ⟨rfl, rfl⟩ := Prod.mk.inj (Option.some.inj hr)
      exact ⟨[], by simp, nofun, .none patterns st.tree⟩
    · cases hr
  | succ fuel ih =>
    intro st hshape hscopes hr
    unfold matchLoop at hr
    split at hr
    · obtain ⟨rfl, rfl⟩ := Prod.mk.inj (Option.some.inj hr)
      exact ⟨[], by simp, nofun, .none patterns st.tree⟩
    · rename_i current scopes hst
      obtain ⟨more, hresults, hsub, hmatched, hrest⟩ := matched_lookAt hp (st.tree.subsOf order current)
        (m := { st with scopes }) rfl
      have hproper : Proper t (st.tree.subsOf order current) := by
        rw [hshape.subsOf]
        exact proper_subsOf h
      obtain ⟨more', hfound, hproper', hmatched'⟩ := ih (hshape.trans hmatched.shape) (fun s hs => by
        rcases mem_append.mp (hrest hs) with hs | hs
        · exact (hproper s hs).1
        · exact hscopes s (by simp [hst, show s ∈ scopes from hs])) hr
      refine ⟨more ++ more', ?_, fun s hs => ?_, hmatched.trans hmatched'⟩
      · rw [hfound, hresults, append_assoc]
      · rcases mem_append.mp hs with hs | hs
        · exact hproper s (hsub hs)
        · exact hproper' s hs

/-- What a round of a loop adds to the results: scopes of the tree, matched. -/
def Adds (patterns : List ScopePattern) (t : ScopeTree) (st st' : ScopeTree × List ScopeId) : Prop :=
  ∃ more, st'.2 = st.2 ++ more ∧ Proper t more ∧ Matched patterns st.1 st'.1 more

/-- A loop adds what its rounds add. -/
theorem adds_foldlM {α : Type} {f : ScopeTree × List ScopeId → α → Option (ScopeTree × List ScopeId)} (l : List α)
    (hstep : ∀ a ∈ l, ∀ st st', t.SameShape st.1 → f st a = some st' → Adds patterns t st st') :
    ∀ st st', t.SameShape st.1 → l.foldlM f st = some st' → Adds patterns t st st' := by
  induction l with
  | nil =>
    intro st st' _ hr
    obtain rfl := Option.some.inj hr
    exact ⟨[], by simp, nofun, .none patterns st.1⟩
  | cons a l ih =>
    intro st st' hst hr
    rw [foldlM_cons] at hr
    obtain ⟨w, hw, hrest⟩ := bind_eq_some_iff.mp hr
    obtain ⟨more, hmore, hproper, hmatched⟩ := hstep a mem_cons_self st w hst hw
    obtain ⟨more', hmore', hproper', hmatched'⟩ := ih (fun b hb => hstep b (mem_cons_of_mem a hb)) w st'
      (hst.trans hmatched.shape) hrest
    refine ⟨more ++ more', by rw [hmore', hmore, append_assoc], fun s hs => ?_, hmatched.trans hmatched'⟩
    exact (mem_append.mp hs).elim (hproper s) (hproper' s)

theorem adds_matchPattern (h : LaidOut t path) (hp : p ∈ patterns) {scope : ScopeId}
    (hscope : scope < t.next ∧ scope ≠ 0) (st st' : ScopeTree × List ScopeId) (hst : t.SameShape st.1)
    (hr : matchPattern order fuel p st scope = some st') : Adds patterns t st st' := by
  obtain ⟨⟨w, more⟩, hone, rfl⟩ := map_eq_some_iff.mp hr
  unfold matchOneScope at hone
  split at hone
  · rename_i hm
    obtain ⟨rfl, rfl⟩ := Prod.mk.inj (Option.some.inj hone)
    refine ⟨[scope], rfl, fun s hs => ?_, .one hp hm⟩
    rw [mem_singleton.mp hs]
    exact hscope
  · obtain ⟨more', hmore, hproper, hmatched⟩ := matched_loop h hp fuel (m := { tree := st.1, scopes := [scope] }) hst
      (fun s hs => by rw [mem_singleton.mp hs]; exact hscope.1) hone
    rw [nil_append] at hmore
    subst hmore
    exact ⟨more, rfl, hproper, hmatched⟩

/-- `MatchOneBatch`. -/
theorem matched_batch (h : LaidOut t path) (hshape : t.SameShape u)
    (hr : matchOneBatch order fuel patterns u = some (v, found)) : Proper t found ∧ Matched patterns u v found := by
  have hsubs : Proper t (u.subsOf order u.root) := by
    rw [hshape.subsOf]
    exact proper_subsOf h
  obtain ⟨more, hmore, hproper, hmatched⟩ := adds_foldlM patterns
    (fun p hp st st' hst hr => adds_foldlM _ (fun scope hscope st st' hst hr =>
      adds_matchPattern h hp (hsubs scope hscope) st st' hst hr) st st' hst hr) (u, []) (v, found) hshape hr
  rw [nil_append] at hmore
  obtain rfl : found = more := hmore
  exact ⟨hproper, hmatched⟩

/-! ## One group -/

/-- What the batches of a group leave: its results have the sub type of a pattern of its last batch that matched them. -/
structure GroupMatched (group : List (List ScopePattern)) (t u : ScopeTree) (st : GroupState) : Prop where
  shape : u.SameShape st.tree
  lists : ∀ s, (st.tree.scope s).allSubScopes = (u.scope s).allSubScopes
  proper : Proper t (st.tmpResults ++ st.lastResults)
  others : ∀ s, s ∉ st.tmpResults → s ∉ st.lastResults → (st.tree.scope s).subType = (u.scope s).subType
  last : ∀ s ∈ st.lastResults, ∃ p ∈ group.getLast?.getD [], (∃ w, u.SameShape w ∧ p.matchScope w s = true) ∧
    (st.tree.scope s).subType = p.subType

/-- The loop over batches, before the last one has matched. -/
theorem groupMatched_batches (h : LaidOut t path) (hu : t.SameShape u) (batches : List (List ScopePattern)) :
    ∀ {m m' : GroupState}, u.SameShape m.tree → (∀ s, (m.tree.scope s).allSubScopes = (u.scope s).allSubScopes) →
      Proper t m.tmpResults → m.lastResults = [] →
      (∀ s, s ∉ m.tmpResults → (m.tree.scope s).subType = (u.scope s).subType) →
      matchBatches order fuel batches m = some m' → GroupMatched batches t u m' := by
  induction batches with
  | nil =>
    intro st st' hshape hlists hproper hlast hothers hr
    obtain rfl := Option.some.inj hr
    exact ⟨hshape, hlists, by rw [hlast, append_nil]; exact hproper, fun s hs _ => hothers s hs, by rw [hlast]; nofun⟩
  | cons batch batches ih =>
    intro st st' hshape hlists hproper hlast hothers hr
    rw [matchBatches] at hr
    split at hr
    · cases hr
    · rename_i w one hone
      obtain ⟨hone', hmatched⟩ := matched_batch h (hu.trans hshape) hone
      have hshape' := hshape.trans hmatched.shape
      have hlists' : ∀ s, (w.scope s).allSubScopes = (u.scope s).allSubScopes := fun s => (hmatched.lists s).trans (hlists s)
      split at hr
      · rename_i hnone
        subst hnone
        obtain rfl := Option.some.inj hr
        refine ⟨hshape', hlists', by rw [hlast, append_nil]; exact hproper, fun s hs _ => ?_, by rw [hlast]; nofun⟩
        exact (hmatched.others s not_mem_nil).trans (hothers s hs)
      · split at hr
        · rename_i hnil
          subst hnil
          obtain rfl := Option.some.inj hr
          rw [hlast, nil_append]
          refine ⟨hshape', hlists', fun s hs => (mem_append.mp hs).elim (hproper s) (hone' s), fun s hs hs' => ?_,
            fun s hs => ?_⟩
          · exact (hmatched.others s hs').trans (hothers s hs)
          · obtain ⟨p, hp, ⟨x, hx, hm⟩, htype⟩ := hmatched.found s hs
            exact ⟨p, hp, ⟨x, hshape.trans hx, hm⟩, htype⟩
        · rename_i hne
          have hrest := ih (m := { st with tree := w, tmpResults := st.tmpResults ++ one }) hshape' hlists'
            (fun s hs => (mem_append.mp hs).elim (hproper s) (hone' s)) hlast (fun s hs => by
              rw [mem_append, not_or] at hs
              exact (hmatched.others s hs.2).trans (hothers s hs.1)) hr
          obtain ⟨next, batches, rfl⟩ := exists_cons_of_ne_nil hne
          refine ⟨hrest.shape, hrest.lists, hrest.proper, hrest.others, ?_⟩
          simpa [getLast?_cons_cons] using hrest.last

theorem groupMatched (h : LaidOut t path) (hu : t.SameShape u)
    (hr : matchBatches order fuel group { tree := u } = some st) : GroupMatched group t u st :=
  groupMatched_batches h hu group (m := { tree := u }) (.refl u) (fun _ => rfl) nofun rfl (fun _ _ => rfl) hr

/-! ## Taking sub types back -/

/-- The name of a scope begins with that of another when it lies below it. -/
theorem nameUnder_iff (h : LaidOut t path) (hu : t.SameShape u) (hs : s < t.next ∧ s ≠ 0) (hr : r < t.next ∧ r ≠ 0) :
    nameUnder (u.scope s).name (u.scope r).name = true ↔ t.Below r s := by
  obtain ⟨-, -, -, -, -, hs', -⟩ := h.filed s hs.1 hs.2
  obtain ⟨-, -, -, -, -, hr', -⟩ := h.filed r hr.1 hr.2
  rw [hu.name, hu.name, hs', hr', below_iff h hr.1, ← dirName_prefix_iff (legal h r hr.1) (legal h s hs.1), nameUnder,
    Bool.and_eq_true, decide_eq_true_iff, isPrefixOf_iff_prefix]
  constructor
  · exact fun hname => ⟨hs.1, hname.2⟩
  · intro hpre
    have hlen := hpre.2.length_le
    rw [String.length_toList, String.length_toList] at hlen
    exact ⟨hlen, hpre.2⟩

/-- The sub type of a scope is taken back. -/
def TakenBack (t : ScopeTree) (st : GroupState) (s : ScopeId) : Prop :=
  s ∈ st.tmpResults ∧ ∀ r ∈ st.lastResults, ¬ t.Below r s

/-- Names stay, so the scopes to be emptied are known from the start. -/
theorem rollback_eq (st : GroupState) : rollback st = (st.tmpResults.filter fun tmp => !st.lastResults.any fun result =>
      nameUnder (st.tree.scope tmp).name (st.tree.scope result).name).foldl (fun t sub => t.setSubType sub "") st.tree := by
  obtain ⟨w, tmps, last⟩ := st
  unfold rollback
  induction tmps generalizing w with
  | nil => rfl
  | cons a tmps ih =>
    have hname : ∀ x d, ((w.setSubType a x).scope d).name = (w.scope d).name := fun x => (sameShape_setSubType w a x).name
    rw [foldl_cons, filter_cons]
    split
    · rename_i hany
      simpa [hany] using ih w
    · rename_i hany
      have hrest := ih (w.setSubType a "")
      simp only [hname] at hrest
      simpa [hany] using hrest

open Classical in
/-- The loop that takes sub types back. -/
theorem rollback_scope (h : LaidOut t path) (hu : t.SameShape u)
    (hg : GroupMatched group t u st) (d : ScopeId) : (rollback st).scope d =
      { st.tree.scope d with subType := if TakenBack t st d then "" else (st.tree.scope d).subType } := by
  have hproper := fun r hr => hg.proper r (mem_append.mpr hr)
  have hname : ∀ r ∈ st.lastResults, d ∈ st.tmpResults →
      (nameUnder (st.tree.scope d).name (st.tree.scope r).name = true ↔ t.Below r d) := fun r hr hd =>
    nameUnder_iff h (hu.trans hg.shape) (hproper d (.inl hd)) (hproper r (.inr hr))
  have hiff : (d ∈ st.tmpResults.filter fun tmp => !st.lastResults.any fun result =>
      nameUnder (st.tree.scope tmp).name (st.tree.scope result).name) ↔ TakenBack t st d := by
    rw [mem_filter, Bool.not_eq_true', Bool.eq_false_iff, Ne, List.any_eq_true]
    refine and_congr_right fun hd => ?_
    constructor
    · exact fun hnot r hr hbelow => hnot ⟨r, hr, (hname r hr hd).mpr hbelow⟩
    · rintro hnot ⟨r, hr, hunder⟩
      exact hnot r hr ((hname r hr hd).mp hunder)
  rw [rollback_eq, empty_scope, if_congr hiff rfl rfl]

/-- What matching one group leaves. -/
structure GroupDone (group : List (List ScopePattern)) (t : ScopeTree) (before after : ScopeTree × List ScopeId)
    (st : GroupState) : Prop where
  matched : GroupMatched group t before.1 st
  results : after.2 = before.2 ++ st.lastResults
  shape : before.1.SameShape after.1
  lists : ∀ s, (after.1.scope s).allSubScopes = (before.1.scope s).allSubScopes
  taken : ∀ s, TakenBack t st s → (after.1.scope s).subType = ""
  kept : ∀ s, ¬ TakenBack t st s → (after.1.scope s).subType = (st.tree.scope s).subType

theorem matchGroup_done (h : LaidOut t path) {before after : ScopeTree × List ScopeId}
    (hb : t.SameShape before.1) (hr : matchGroup order fuel before group = some after) :
    ∃ st, matchBatches order fuel group { tree := before.1 } = some st ∧ after = (rollback st, before.2 ++ st.lastResults) ∧
      GroupDone group t before after st := by
  obtain ⟨st, hst, rfl⟩ := map_eq_some_iff.mp hr
  have hg := groupMatched h hb hst
  have hscope := rollback_scope h hb hg
  have hshape : st.tree.SameShape (rollback st) := rollback_eq st ▸ sameShape_empty _ st.tree
  refine ⟨st, hst, rfl, hg, rfl, hg.shape.trans hshape, fun s => ?_, fun s hs => ?_, fun s hs => ?_⟩
  · rw [hscope]
    exact hg.lists s
  · rw [hscope, if_pos hs]
  · rw [hscope, if_neg hs]

/-! ## Clearing -/

theorem descend_mono {stack : List ScopeId} (hle : fuel ≤ fuel')
    (hr : t.descend order fuel stack all = some l) : t.descend order fuel' stack all = some l := by
  induction fuel generalizing fuel' stack all with
  | zero =>
    cases stack with
    | nil => simpa [ScopeTree.descend] using hr
    | cons => cases hr
  | succ fuel ih =>
    obtain ⟨fuel', rfl⟩ := Nat.exists_eq_add_of_le' (Nat.le_trans (Nat.le_add_left 1 fuel) hle)
    cases stack with
    | nil => simpa [ScopeTree.descend] using hr
    | cons =>
      rw [ScopeTree.descend] at hr ⊢
      exact ih (Nat.add_le_add_iff_right.mp hle) hr

theorem descendEach_mono {scopes : List ScopeId} (hle : fuel ≤ fuel')
    (hr : t.descendEach order fuel scopes all = some l) : t.descendEach order fuel' scopes all = some l := by
  induction scopes generalizing all with
  | nil => exact hr
  | cons a scopes ih =>
    obtain ⟨below, hbelow, hrest⟩ := bind_eq_some_iff.mp hr
    exact bind_eq_some_iff.mpr ⟨below, descend_mono hle hbelow, ih hrest⟩

/-- What `GetAllSubScopes` returns, now or before, is what lies below. -/
theorem getAllSubScopes_right (h : LaidOut t path) (hu : t.SameShape u) (hl : u.ListsRight) (hs : s < t.next)
    (hr : u.getAllSubScopes order fuel s = some (l, v)) :
    (∀ d, d ∈ l ↔ TransGen t.Sub s d) ∧ t.SameShape v ∧ v.ListsRight ∧ ∀ d, (v.scope d).subType = (u.scope d).subType := by
  unfold ScopeTree.getAllSubScopes at hr
  split at hr
  · rename_i hne
    obtain ⟨rfl, rfl⟩ := Prod.mk.inj (Option.some.inj hr)
    exact ⟨fun d => by rw [← hu.sub]; exact hl s hne d, hu, hl, fun _ => rfl⟩
  · obtain ⟨found, hfound, hr⟩ := bind_eq_some_iff.mp hr
    obtain ⟨rfl, rfl⟩ := Prod.mk.inj (Option.some.inj hr)
    rw [hu.descendEach, hu.subsOf] at hfound
    -- with more fuel the same is found
    obtain ⟨l, w, hw, -, hmem⟩ := getAllSubScopes_spec order h hs (Nat.le_max_right fuel t.next)
    rw [ScopeTree.getAllSubScopes, if_neg (by simp [h.uncached]), descendEach_mono (Nat.le_max_left fuel t.next) hfound] at hw
    obtain rfl : found = l := (Prod.mk.inj (Option.some.inj hw)).1
    have hscope : ∀ d, (u.setScope s { u.scope s with allSubScopes := found }).scope d =
        { u.scope d with allSubScopes := if d = s then found else (u.scope d).allSubScopes } := by
      intro d
      by_cases hd : d = s
      · simp [ScopeTree.setScope, hd]
      · simp [ScopeTree.setScope, hd]
    have hshape : u.SameShape (u.setScope s { u.scope s with allSubScopes := found }) :=
      ⟨rfl, rfl, fun d => by rw [hscope]⟩
    refine ⟨hmem, hu.trans hshape, fun d hne x => ?_, fun d => by rw [hscope]⟩
    rw [hshape.sub]
    rw [hscope] at hne ⊢
    by_cases hd : d = s
    · subst hd
      simp only [if_pos] at hne ⊢
      rw [hmem, hu.sub]
    · simp only [if_neg hd] at hne ⊢
      exact hl d hne x

open Classical in
/-- `ClearTypeAndSubType` empties a scope and what lies below it. -/
theorem clear_spec (h : LaidOut t path) (hu : t.SameShape u) (hl : u.ListsRight) (hs : s < t.next)
    (hr : u.clearTypeAndSubType order fuel s = some v) :
    t.SameShape v ∧ v.ListsRight ∧ ∀ d, (v.scope d).subType = if t.Below s d then "" else (u.scope d).subType := by
  obtain ⟨⟨l, w⟩, hget, rfl⟩ := map_eq_some_iff.mp hr
  have hu' := hu.trans (sameShape_setSubType u s "")
  have hl' : (u.setSubType s "").ListsRight := by
    intro d hne x
    rw [(sameShape_setSubType u s "").sub]
    rw [setSubType_scope] at hne ⊢
    exact hl d hne x
  obtain ⟨hmem, hw, hlw, htype⟩ := getAllSubScopes_right h hu' hl' hs hget
  have hempty := empty_scope l w
  have hshape := sameShape_empty l w
  refine ⟨hw.trans hshape, fun d hne x => ?_, fun d => ?_⟩
  · rw [hshape.sub]
    rw [hempty] at hne ⊢
    exact hlw d hne x
  · rw [hempty, htype, setSubType_scope]
    have hbelow : t.Below s d ↔ d ∈ l ∨ d = s := by
      rw [ScopeTree.Below, reflTransGen_iff_eq_or_transGen, hmem, or_comm]
    by_cases hd : d ∈ l
    · simp [hd, hbelow]
    · by_cases hds : d = s
      · subst hds
        simp [hbelow]
      · simp [hd, hds, hbelow]

open Classical in
/-- Clearing the results one after the other. -/
theorem clearAll_spec (h : LaidOut t path) (results : List ScopeId) (hresults : ∀ r ∈ results, r < t.next) :
    ∀ {u v}, t.SameShape u → u.ListsRight → results.foldlM (ScopeTree.clearTypeAndSubType order fuel) u = some v →
      ∀ d, (v.scope d).subType = if ∃ r ∈ results, t.Below r d then "" else (u.scope d).subType := by
  induction results with
  | nil =>
    intro u v _ _ hr d
    obtain rfl := Option.some.inj hr
    simp
  | cons a results ih =>
    intro u v hu hl hr d
    rw [foldlM_cons] at hr
    obtain ⟨w, hw, hrest⟩ := bind_eq_some_iff.mp hr
    obtain ⟨hshape, hlists, htype⟩ := clear_spec h hu hl (hresults a mem_cons_self) hw
    rw [ih (fun r hr => hresults r (mem_cons_of_mem a hr)) hshape hlists hrest d, htype]
    by_cases hd : t.Below a d
    · simp [hd]
    · simp [hd]

/-! ## A run -/

variable {group : List (List ScopePattern)} {before after fin : ScopeTree × List ScopeId} {st : GroupState}

/-- What stays of the tree given while groups are matched. -/
structure Stays (t u : ScopeTree) (st : ScopeTree × List ScopeId) : Prop where
  shape : t.SameShape st.1
  lists : ∀ s, (st.1.scope s).allSubScopes = (u.scope s).allSubScopes
  results : ∀ r ∈ st.2, r < t.next

theorem Stays.step (h : LaidOut t path) (hs : Stays t u before) (hr : matchGroup order fuel before group = some after) :
    Stays t u after := by
  obtain ⟨st, -, -, hdone⟩ := matchGroup_done h hs.shape hr
  refine ⟨hs.shape.trans hdone.shape, fun s => (hdone.lists s).trans (hs.lists s), fun r hr => ?_⟩
  rw [hdone.results, mem_append] at hr
  exact hr.elim (hs.results r) fun hr => (hdone.matched.proper r (mem_append_right _ hr)).1

/-- A scope has no sub type, or would have none when the results were cleared. -/
def Cleared (t : ScopeTree) (st : ScopeTree × List ScopeId) (s : ScopeId) : Prop :=
  (st.1.scope s).subType = "" ∨ ∃ r ∈ st.2, t.Below r s

/-- The scopes a group matches are cleared, and those that were before stay so. -/
theorem GroupDone.cleared (hd : GroupDone group t before after st)
    (hs : s ∈ st.tmpResults ∨ s ∈ st.lastResults ∨ Cleared t before s) : Cleared t after s := by
  have hlast : ∀ r ∈ st.lastResults, t.Below r s → Cleared t after s := fun r hr hbelow =>
    .inr ⟨r, hd.results ▸ mem_append_right _ hr, hbelow⟩
  by_cases htaken : TakenBack t st s
  · exact .inl (hd.taken s htaken)
  · by_cases hl : s ∈ st.lastResults
    · exact hlast s hl .refl
    · by_cases ht : s ∈ st.tmpResults
      · have hnot : ¬ ∀ r ∈ st.lastResults, ¬ t.Below r s := fun hnone => htaken ⟨ht, hnone⟩
        push Not at hnot
        obtain ⟨r, hr, hbelow⟩ := hnot
        exact hlast r hr hbelow
      · rcases (hs.resolve_left ht).resolve_left hl with hnone | ⟨r, hr, hbelow⟩
        · exact .inl ((hd.kept s htaken).trans ((hd.matched.others s ht hl).trans hnone))
        · exact .inr ⟨r, hd.results ▸ mem_append_left _ hr, hbelow⟩

theorem cleared_exec (h : LaidOut t path) (hb : Stays t u before)
    (hs : Cleared t before s) (hr : Run.exec (matchGroup order fuel) groups before = some fin) : Cleared t fin s := by
  have hinv := invariant (f := matchGroup order fuel) (Q := fun _ _ => True)
    (P := fun st => Stays t u st ∧ Cleared t st s) (fun before group after ⟨hb, hs⟩ _ hr => by
      obtain ⟨_, -, -, hdone⟩ := matchGroup_done h hb.shape hr
      exact ⟨hb.step h hr, hdone.cleared (.inr (.inr hs))⟩)
  exact (hinv groups before fin ⟨hb, hs⟩ (each_of_forall (fun _ _ => trivial) groups before) hr).2

/-- Where the scopes cleared in the end had no sub type, each group matches scopes that had none. -/
theorem each_matchesBare (h : LaidOut t path) (hu : t.SameShape u) (groups : List (List (List ScopePattern)))
    (hfin : ∀ s, Cleared t fin s → (u.scope s).subType = "") : ∀ {before}, Stays t u before →
      Run.exec (matchGroup order fuel) groups before = some fin →
      Run.Each (matchGroup order fuel) (MatchesBare order fuel u) groups before := by
  induction groups with
  | nil => exact fun _ _ => trivial
  | cons group groups ih =>
    intro before hb hr
    obtain ⟨after, hafter, hrest⟩ := bind_eq_some_iff.mp hr
    have hb' := hb.step h hafter
    obtain ⟨st, hst, -, hdone⟩ := matchGroup_done h hb.shape hafter
    refine ⟨fun r hr => ?_, fun w hw => ?_⟩
    · obtain rfl : st = r := Option.some.inj (hst.symm.trans hr)
      refine ⟨fun s hs => hfin s (cleared_exec h hb' (hdone.cleared (.inl hs)) hrest), fun s hs d hd => hfin d ?_⟩
      rw [hu.below] at hd
      exact cleared_exec h hb' (.inr ⟨s, hdone.results ▸ mem_append_right _ hs, hd⟩) hrest
    · obtain rfl : after = w := Option.some.inj (hafter.symm.trans hw)
      exact ih hb' hrest

/-- The scopes that do not have the sub type they had lie below results, where none had any. -/
structure Spares (t u : ScopeTree) (st : ScopeTree × List ScopeId) : Prop where
  same : ∀ s, (st.1.scope s).subType = (u.scope s).subType ∨ ∃ r ∈ st.2, t.Below r s
  bare : ∀ r ∈ st.2, ∀ d, t.Below r d → (u.scope d).subType = ""

theorem Spares.step (h : LaidOut t path) (hu : t.SameShape u) (hb : Stays t u before) (hs : Spares t u before)
    (hbare : MatchesBare order fuel u before group) (hr : matchGroup order fuel before group = some after) :
    Spares t u after := by
  obtain ⟨st, hst, -, hdone⟩ := matchGroup_done h hb.shape hr
  obtain ⟨htmp, hlast⟩ := hbare st hst
  rw [hu.below] at hlast
  refine ⟨fun s => ?_, fun r hr d hd => ?_⟩
  · by_cases htaken : TakenBack t st s
    · exact .inl ((hdone.taken s htaken).trans (htmp s htaken.1).symm)
    · by_cases hm : s ∈ st.tmpResults ∨ s ∈ st.lastResults
      · have hcleared : ∃ r ∈ st.lastResults, t.Below r s := by
          rcases hm with hm | hm
          · by_contra hnone
            exact htaken ⟨hm, fun r hr hbelow => hnone ⟨r, hr, hbelow⟩⟩
          · exact ⟨s, hm, .refl⟩
        obtain ⟨r, hr, hbelow⟩ := hcleared
        exact .inr ⟨r, hdone.results ▸ mem_append_right _ hr, hbelow⟩
      · rw [not_or] at hm
        rw [hdone.kept s htaken, hdone.matched.others s hm.1 hm.2]
        refine (hs.same s).imp_right ?_
        rintro ⟨r, hr, hbelow⟩
        exact ⟨r, hdone.results ▸ mem_append_left _ hr, hbelow⟩
  · rw [hdone.results, mem_append] at hr
    exact hr.elim (fun hr => hs.bare r hr d hd) fun hr => hlast r hr d hd

open Classical in
/-- When the scopes are not changed, nothing was found or the results are cleared. -/
theorem run_unchanged (h : LaidOut t path) (hu : t.SameShape u) (hl : u.ListsRight) {pass : ScopeBasePass}
    (hr : run order fuel pass u = some (.scopeNotChanged, v)) :
    ∃ fin, Run.exec (matchGroup order fuel) pass.definePatterns (u, []) = some fin ∧
      ∀ s, (v.scope s).subType = if ∃ r ∈ fin.2, t.Below r s then "" else (fin.1.scope s).subType := by
  obtain ⟨⟨w, results⟩, hfin, hr⟩ := bind_eq_some_iff.mp hr
  dsimp only at hr
  refine ⟨(w, results), hfin, ?_⟩
  have hstays := invariant (f := matchGroup order fuel) (Q := fun _ _ => True) (P := Stays t u)
    (fun _ _ _ hs _ hr => hs.step h hr) pass.definePatterns (u, []) (w, results) ⟨hu, fun _ => rfl, nofun⟩
    (each_of_forall (fun _ _ => trivial) _ _) hfin
  have hlists : w.ListsRight := by
    intro s hne d
    rw [hstays.shape.sub, ← hu.sub]
    rw [hstays.lists] at hne ⊢
    exact hl s hne d
  by_cases hnil : results = []
  · rw [if_pos hnil] at hr
    obtain rfl : w = v := (Prod.mk.inj (Option.some.inj hr)).2
    simp [hnil]
  · rw [if_neg hnil] at hr
    by_cases hlast : pass.lastMatchScopesAndOPs w = true
    · rw [if_neg (by simp [hlast])] at hr
      split at hr
      · cases hr
      · split at hr <;> cases hr
    · rw [if_pos (by simp [hlast])] at hr
      obtain ⟨x, hx, hr⟩ := bind_eq_some_iff.mp hr
      obtain rfl : x = v := (Prod.mk.inj (Option.some.inj hr)).2
      exact clearAll_spec h results hstays.results hstays.shape hlists hx

/-- The results carry the sub type of a pattern of the last batch of a group that matched them. -/
def Carried (u : ScopeTree) (groups : List (List (List ScopePattern))) (st : ScopeTree × List ScopeId) : Prop :=
  ∀ r ∈ st.2, ∃ group ∈ groups, ∃ p ∈ group.getLast?.getD [], (∃ w, u.SameShape w ∧ p.matchScope w r = true) ∧
    (st.1.scope r).subType = p.subType

theorem Carried.step (h : LaidOut t path) (hs : t.SameShape before.1)
    (hu : u.SameShape before.1) (hc : Carried u groups before) (hspare : SparesResults order fuel before group)
    (hg : group ∈ groups) (hr : matchGroup order fuel before group = some after) : Carried u groups after := by
  obtain ⟨st, hst, -, hdone⟩ := matchGroup_done h hs hr
  intro r hr
  by_cases hlast : r ∈ st.lastResults
  · obtain ⟨p, hp, ⟨w, hw, hm⟩, htype⟩ := hdone.matched.last r hlast
    have hkept := hdone.kept r fun htaken => htaken.2 r hlast .refl
    exact ⟨group, hg, p, hp, ⟨w, hu.trans hw, hm⟩, hkept.trans htype⟩
  · rw [hdone.results, mem_append] at hr
    have hbefore := hr.resolve_right hlast
    have htmp : r ∉ st.tmpResults := fun htmp => hlast (hspare st hst r htmp hbefore)
    obtain ⟨group', hg', p, hp, hm, htype⟩ := hc r hbefore
    refine ⟨group', hg', p, hp, hm, ?_⟩
    rw [hdone.kept r fun htaken => htmp htaken.1, hdone.matched.others r htmp hlast, htype]

/-- A scope without a sub type that the groups pass by is left without one. -/
theorem bare_exec (h : LaidOut t path) (hb : t.SameShape before.1)
    (hs : (before.1.scope s).subType = "") (hpass : Run.Each (matchGroup order fuel) (PassesBy order fuel s) groups before)
    (hr : Run.exec (matchGroup order fuel) groups before = some fin) : (fin.1.scope s).subType = "" := by
  have hinv := invariant (f := matchGroup order fuel) (Q := PassesBy order fuel s)
    (P := fun st => t.SameShape st.1 ∧ (st.1.scope s).subType = "") (fun before group after ⟨hb, hs⟩ hpass hr => by
      obtain ⟨st, hst, -, hdone⟩ := matchGroup_done h hb hr
      obtain ⟨htmp, hlast⟩ := hpass st hst
      refine ⟨hb.trans hdone.shape, ?_⟩
      rw [hdone.kept s fun htaken => htmp htaken.1, hdone.matched.others s htmp hlast, hs])
  exact (hinv groups before fin ⟨hb, hs⟩ hpass hr).2

end ScopePassAux

open ScopeTreeAux ScopePassAux in
/-- A pass that returns that the scopes are not changed has left each scope its sub type if and only if, in the tree given, the
scopes its groups matched had none, nor had those below the ones the last batches matched. Where no earlier batch of a group
matches a result of the groups before, each result carries the sub type of a pattern of a last batch that matched it. A scope that
lies under no result of a group, which only the earlier batches of the group matched, is left without a sub type. -/
theorem run_leavesNoTrace_iff (order : HashOrder) (fuel : Nat) (t : ScopeTree) (ht : t.Typed) (pass : ScopeBasePass) :
    (∀ t', run order fuel pass t = some (.scopeNotChanged, t') →
      ((∀ s, (t'.scope s).subType = (t.scope s).subType) ↔
        Run.Each (matchGroup order fuel) (MatchesBare order fuel t) pass.definePatterns (t, []))) ∧
    (∀ u results, matchAllBatches order fuel pass.definePatterns t = some (u, results) →
      Run.Each (matchGroup order fuel) (SparesResults order fuel) pass.definePatterns (t, []) →
      ∀ r ∈ results, ∃ group ∈ pass.definePatterns, ∃ p ∈ group.getLast?.getD [],
        (∃ w, t.SameShape w ∧ p.matchScope w r = true) ∧ (u.scope r).subType = p.subType) ∧
    (∀ before group after, pass.definePatterns = before ++ group :: after → ∀ st r,
      Run.exec (matchGroup order fuel) before (t, []) = some st → matchBatches order fuel group { tree := st.1 } = some r →
      ∀ s ∈ r.tmpResults, (∀ l ∈ r.lastResults, ¬ t.Below l s) →
        Run.Each (matchGroup order fuel) (PassesBy order fuel s) after (rollback r, st.2 ++ r.lastResults) →
        ∀ u results, matchAllBatches order fuel pass.definePatterns t = some (u, results) → (u.scope s).subType = "") := by
  obtain ⟨⟨nodeDefs, hshape⟩, hlists⟩ := ht
  obtain ⟨path, ⟨h, -⟩⟩ := Holds.run nodeDefs
  generalize ScopeTree.addAll nodeDefs = base at h hshape
  have hstart : Stays base t (t, []) := ⟨hshape, fun _ => rfl, nofun⟩
  refine ⟨fun t' hrun => ?_, fun u results hall hspare => ?_,
    fun before group after hsplit st r hst hr s hs hunder hpass u results hall => ?_⟩
  · obtain ⟨fin, hfin, htype⟩ := run_unchanged h hshape hlists hrun
    constructor
    · intro hsame
      refine each_matchesBare h hshape pass.definePatterns (fun s hs => ?_) hstart hfin
      rw [← hsame s, htype s]
      by_cases hbelow : ∃ r ∈ fin.2, base.Below r s
      · rw [if_pos hbelow]
      · rw [if_neg hbelow]
        exact hs.resolve_right hbelow
    · intro hbare s
      have hinv := invariant (f := matchGroup order fuel) (Q := MatchesBare order fuel t)
        (P := fun st => Stays base t st ∧ Spares base t st) (fun before group after ⟨hb, hs⟩ hok hr =>
          ⟨hb.step h hr, hs.step h hshape hb hok hr⟩)
      obtain ⟨-, hspares⟩ := hinv pass.definePatterns (t, []) fin ⟨hstart, fun _ => .inl rfl, nofun⟩ hbare hfin
      rw [htype s]
      by_cases hbelow : ∃ r ∈ fin.2, base.Below r s
      · obtain ⟨r, hr, hrs⟩ := hbelow
        rw [if_pos ⟨r, hr, hrs⟩, hspares.bare r hr s hrs]
      · rw [if_neg hbelow]
        exact (hspares.same s).resolve_right hbelow
  · have hinv := invariant (f := matchGroup order fuel)
      (Q := fun st group => SparesResults order fuel st group ∧ group ∈ pass.definePatterns)
      (P := fun st => Stays base t st ∧ t.SameShape st.1 ∧ Carried t pass.definePatterns st)
      (fun before group after ⟨hb, hu, hc⟩ hok hr => by
        obtain ⟨_, -, -, hdone⟩ := matchGroup_done h hb.shape hr
        exact ⟨hb.step h hr, hu.trans hdone.shape, hc.step h hb.shape hu hok.1 hok.2 hr⟩)
    exact (hinv pass.definePatterns (t, []) (u, results) ⟨hstart, .refl t, nofun⟩
      (each_and_mem _ _ (fun _ hg => hg) hspare) hall).2.2
  · have hinv := invariant (f := matchGroup order fuel) (Q := fun _ _ => True) (P := Stays base t)
      (fun _ _ _ hs _ hr => hs.step h hr)
    have hb := hinv before (t, []) st hstart (each_of_forall (fun _ _ => trivial) _ _) hst
    have hgroup : matchGroup order fuel st group = some (rollback r, st.2 ++ r.lastResults) :=
      map_eq_some_iff.mpr ⟨r, hr, rfl⟩
    obtain ⟨r', hr', -, hdone⟩ := matchGroup_done h hb.shape hgroup
    obtain rfl : r = r' := Option.some.inj (hr.symm.trans hr')
    rw [hshape.below] at hunder
    have hafter : Run.exec (matchGroup order fuel) after (rollback r, st.2 ++ r.lastResults) = some (u, results) := by
      rw [matchAllBatches, hsplit, exec_append, hst, bind_some, Run.exec, hgroup, bind_some] at hall
      exact hall
    exact bare_exec h (hb.shape.trans hdone.shape) (hdone.taken s ⟨hs, hunder⟩) hpass hafter

namespace ScopePassWitness

/-- Maps are gone through in the order of their entries. -/
def inEntryOrder : HashOrder := ⟨id, fun _ => .refl _⟩

/-- The tree of one operator, in whose directory an earlier pass has left a sub type. -/
def fused : ScopeTree := (ScopeTree.addAll [some { ptr := 0, name := "a/b", opType := "Relu" }]).setSubType 1 "old"

/-- A group of two batches: scopes with one operator of a type, and then none. -/
def pass : ScopeBasePass where
  definePatterns := [[[{ subType := "relu", matchScope := fun t s => (t.scope s).getOpTypeNum "Relu" = 1 }],
    [{ subType := "none", matchScope := fun _ _ => false }]]]
  lastMatchScopesAndOPs := fun _ => true
  addFusionScopesResultToScopeGraph := fun _ => true
  printFusionScopeInfo := fun _ => true

theorem typed_fused : fused.Typed := by
  refine ⟨⟨_, ScopePassAux.sameShape_setSubType _ 1 "old"⟩, fun s hne => absurd ?_ hne⟩
  obtain ⟨path, ⟨h, -⟩⟩ := ScopeTreeAux.Holds.run [some { ptr := 0, name := "a/b", opType := "Relu" }]
  rw [fused, ScopePassAux.setSubType_scope]
  exact h.uncached s

theorem run_leavesNoTrace_fused : ∃ t', run inEntryOrder 10 pass fused = some (.scopeNotChanged, t') ∧
    ((∀ s, (t'.scope s).subType = (fused.scope s).subType) ↔
      Run.Each (matchGroup inEntryOrder 10) (MatchesBare inEntryOrder 10 fused) pass.definePatterns (fused, [])) := by
  have hrun : (run inEntryOrder 10 pass fused).map Prod.fst = some .scopeNotChanged := by decide +kernel
  obtain ⟨⟨status, t'⟩, hr, hstatus⟩ := map_eq_some_iff.mp hrun
  obtain rfl : status = .scopeNotChanged := hstatus
  exact ⟨t', hr, (run_leavesNoTrace_iff inEntryOrder 10 fused typed_fused pass).1 t' hr⟩

/-- The first batch matches the directory, the second nothing: the sub type of the earlier pass is gone. -/
theorem run_leavesNoTrace_false :
    ¬ ∀ (order : HashOrder) (fuel : Nat) (t : ScopeTree), t.Typed → ∀ (pass : ScopeBasePass) (t' : ScopeTree),
      run order fuel pass t = some (.scopeNotChanged, t') → ∀ s, (t'.scope s).subType = (t.scope s).subType := by
  intro hall
  have hrun : (run inEntryOrder 10 pass fused).map (fun r => (r.1, (r.2.scope 1).subType)) = some (.scopeNotChanged, "") := by
    decide +kernel
  obtain ⟨⟨status, t'⟩, hr, hboth⟩ := map_eq_some_iff.mp hrun
  obtain ⟨rfl, hnone⟩ : status = .scopeNotChanged ∧ (t'.scope 1).subType = "" := by simpa using hboth
  have hsame := hall inEntryOrder 10 fused typed_fused pass t' hr 1
  rw [hnone] at hsame
  exact absurd hsame (by decide +kernel)

end ScopePassWitness

end Metadef
