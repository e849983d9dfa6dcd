import Metadef.Lib.Run
import Metadef.ScopeGraph

/-!
# Scope passes

`ScopeBasePassImpl::Run` of `scope_pass.cc` and the functions that match the scopes of a tree. The patterns of a pass stand in
groups, a group is a list of batches, and a batch a list of patterns. What a pattern matches is a matter of the pattern.
-/

namespace Metadef

/-- A pattern: the sub type it gives, and `Match`. -/
structure ScopePattern where
  subType : String
  matchScope : ScopeTree → ScopeId → Bool

/-- A pass: its patterns, whether `LastMatchScopesAndOPs` succeeds, and whether the results are added to the graph and printed
afterwards. -/
structure ScopeBasePass where
  definePatterns : List (List (List ScopePattern))
  lastMatchScopesAndOPs : ScopeTree → Bool
  addFusionScopesResultToScopeGraph : ScopeTree → Bool
  printFusionScopeInfo : ScopeTree → Bool

/-- What a run of a pass returns. -/
inductive PassStatus where
  | success | failed | scopeNotChanged
  deriving DecidableEq, Repr

namespace ScopeTree

/-- `SetSubType`. -/
def setSubType (t : ScopeTree) (s : ScopeId) (subType : String) : ScopeTree :=
  t.setScope s { t.scope s with subType := subType }

/-- `ClearTypeAndSubType`. -/
def clearTypeAndSubType (order : HashOrder) (fuel : Nat) (t : ScopeTree) (s : ScopeId) : Option ScopeTree :=
  ((t.setSubType s "").getAllSubScopes order fuel s).map fun r => r.1.foldl (fun t sub => t.setSubType sub "") r.2

end ScopeTree

namespace ScopeBasePassImpl

variable (order : HashOrder) (fuel : Nat)

/-- The tree with the scopes found so far, and the stack. -/
structure MatchState where
  tree : ScopeTree
  results : List ScopeId := []
  scopes : List ScopeId := []

/-- Looks at a sub scope: one that matches is given the sub type, another is gone into later. -/
def lookAt (pattern : ScopePattern) (st : MatchState) (subScope : ScopeId) : MatchState :=
  if pattern.matchScope st.tree subScope then
    { st with tree := st.tree.setSubType subScope pattern.subType, results := st.results ++ [subScope] }
  else { st with scopes := subScope :: st.scopes }

/-- The loop of `MatchOneScope` over its stack. -/
def matchLoop (pattern : ScopePattern) : Nat → MatchState → Option (ScopeTree × List ScopeId)
  | fuel, st =>
    match st.scopes with
    | [] => some (st.tree, st.results)
    | current :: scopes =>
      match fuel with
      | 0 => none
      | fuel + 1 => matchLoop pattern fuel ((st.tree.subsOf order current).foldl (lookAt pattern) { st with scopes })

/-- `MatchOneScope`, with the scopes it adds to the results; it returns whether there are any. -/
def matchOneScope (pattern : ScopePattern) (t : ScopeTree) (scope : ScopeId) : Option (ScopeTree × List ScopeId) :=
  if pattern.matchScope t scope then some (t.setSubType scope pattern.subType, [scope])
  else matchLoop order pattern fuel { tree := t, scopes := [scope] }

/-- The inner loop of `MatchOneBatch`. -/
def matchPattern (pattern : ScopePattern) (st : ScopeTree × List ScopeId) (scope : ScopeId) :
    Option (ScopeTree × List ScopeId) :=
  (matchOneScope order fuel pattern st.1 scope).map fun r => (r.1, st.2 ++ r.2)

/-- `MatchOneBatch`, with the scopes it adds to the results; it returns whether there are any. -/
def matchOneBatch (patternlist : List ScopePattern) (t : ScopeTree) : Option (ScopeTree × List ScopeId) :=
  patternlist.foldlM (fun st pattern => (t.subsOf order t.root).foldlM (matchPattern order fuel pattern) st) (t, [])

/-- The inner loop of `MatchOneBatch` with `find`, which counts the calls of `MatchOneScope` that return true. -/
def countPattern (pattern : ScopePattern) (st : (ScopeTree × List ScopeId) × Nat) (scope : ScopeId) :
    Option ((ScopeTree × List ScopeId) × Nat) :=
  (matchOneScope order fuel pattern st.1.1 scope).map fun r => ((r.1, st.1.2 ++ r.2), if r.2 ≠ [] then st.2 + 1 else st.2)

/-- `MatchOneBatch`, with what it returns. -/
def matchBatch (patternlist : List ScopePattern) (t : ScopeTree) : Option ((ScopeTree × List ScopeId) × Bool) :=
  (patternlist.foldlM (fun st pattern => (t.subsOf order t.root).foldlM (countPattern order fuel pattern) st) ((t, []), 0)).map
    fun r => (r.1, 0 < r.2)

/-- The tree with the scopes that earlier batches and the last batch of a group matched. -/
structure GroupState where
  tree : ScopeTree
  tmpResults : List ScopeId := []
  lastResults : List ScopeId := []

/-- The loop over the batches of a group, which a batch that matches nothing ends. -/
def matchBatches : List (List ScopePattern) → GroupState → Option GroupState
  | [], st => some st
  | batch :: batches, st =>
    match matchOneBatch order fuel batch st.tree with
    | none => none
    | some (t, oneResults) =>
      if oneResults = [] then some { st with tree := t }
      else if batches = [] then matchBatches batches { st with tree := t, lastResults := st.lastResults ++ oneResults }
      else matchBatches batches { st with tree := t, tmpResults := st.tmpResults ++ oneResults }

/-- Whether a name begins with another. -/
def nameUnder (name other : String) : Bool := other.length ≤ name.length && other.toList.isPrefixOf name.toList

/-- The loop that takes the sub types of earlier batches back, unless the name of the scope begins with that of a result. -/
def rollback (st : GroupState) : ScopeTree :=
  st.tmpResults.foldl (fun t tmp =>
    if st.lastResults.any fun result => nameUnder (t.scope tmp).name (t.scope result).name then t else t.setSubType tmp "") st.tree

/-- One round of `MatchAllBatches`: a group. -/
def matchGroup (st : ScopeTree × List ScopeId) (scopePatterns : List (List ScopePattern)) : Option (ScopeTree × List ScopeId) :=
  (matchBatches order fuel scopePatterns { tree := st.1 }).map fun r => (rollback r, st.2 ++ r.lastResults)

/-- `MatchAllBatches`, with the results; it returns whether there are any. -/
def matchAllBatches (patterns : List (List (List ScopePattern))) (t : ScopeTree) : Option (ScopeTree × List ScopeId) :=
  Run.exec (matchGroup order fuel) patterns (t, [])

/-- `Run`. -/
def run (pass : ScopeBasePass) (t : ScopeTree) : Option (PassStatus × ScopeTree) := do
  let (t, results) ← matchAllBatches order fuel pass.definePatterns t
  if results = [] then return (.scopeNotChanged, t)
  if !pass.lastMatchScopesAndOPs t then
    let t ← results.foldlM (ScopeTree.clearTypeAndSubType order fuel) t
    return (.scopeNotChanged, t)
  if !pass.addFusionScopesResultToScopeGraph t then return (.failed, t)
  if !pass.printFusionScopeInfo t then return (.failed, t)
  return (.success, t)

end ScopeBasePassImpl

/-!
## Scope patterns

The features of `scope_pattern.cc` a pattern asks of a scope: how many operators of a type there are in it, an attribute one of its
operators has, its name, and the sub types and the names of the scopes below it.
-/

/-! ## Last names -/

namespace ScopeImpl

/-- `TrimScopeIndex`: without an underscore and a positive number of 32 bits at the end. -/
def trimScopeIndex (scopeName : String) : String :=
  let reversed := scopeName.toList.reverse
  let digits := (reversed.takeWhile (· ≠ '_')).reverse
  let index := digits.foldl (fun n c => 10 * n + (c.toNat - '0'.toNat)) 0
  if reversed.contains '_' && digits.all Char.isDigit && 0 < index && index < 2 ^ 31 then
    String.ofList ((reversed.dropWhile (· ≠ '_')).tail.reverse)
  else scopeName

/-- `LastName`. -/
def lastName (name : String) : String :=
  let names := StringUtils.split name '/'
  if names.length < 2 then name else trimScopeIndex (names.getD (names.length - 2) "")

end ScopeImpl

/-! ## Features -/

/-- So many operators of a type, or with a step a number of them that leaves a rest. -/
structure NodeOpTypeFeature where
  nodeType : String
  num : Int
  step : Int := 0
  deriving DecidableEq, Repr

/-- An operator of a type with an attribute of a value. `sameValue` says of an operator whether it has the attribute, and then
whether that is of the value. -/
structure NodeAttrFeature where
  nodeType : String
  attrName : String
  sameValue : Nat → Option Bool

/-- The scope's own name, so many scopes of a sub type below it, and a part of a name of one. -/
structure ScopeFeature where
  subType : String
  num : Int
  suffix : String := ""
  subScopeMask : String := ""
  step : Int := 0
  deriving DecidableEq, Repr

/-- `NodeOpTypeFeature::Match`. -/
def NodeOpTypeFeature.matchScope (f : NodeOpTypeFeature) (s : Scope) : Bool :=
  if f.step = 0 then s.getOpTypeNum f.nodeType = f.num
  else s.getOpTypeNum f.nodeType ≠ -1 && (s.getOpTypeNum f.nodeType).tmod f.step = f.num

/-- The loop of `NodeAttrFeature::Match` over operators. -/
def NodeAttrFeature.matchNodes (f : NodeAttrFeature) : List NodeDef → Bool
  | [] => false
  | n :: nodes =>
    if f.nodeType ≠ n.opType then f.matchNodes nodes
    else
      match f.sameValue n.ptr with
      | none => false
      | some true => true
      | some false => f.matchNodes nodes

/-- `NodeAttrFeature::Match`. -/
def NodeAttrFeature.matchScope (f : NodeAttrFeature) (s : Scope) : Bool := f.matchNodes s.nodes

namespace ScopeFeature

variable (f : ScopeFeature)

/-- Whether a part of the last name of a scope is the mask. -/
def nameMatches (s : Scope) : Bool :=
  0 < f.subScopeMask.utf8ByteSize && f.subScopeMask.utf8ByteSize < s.name.utf8ByteSize &&
    f.subScopeMask.toList <:+: (ScopeImpl.lastName s.name).toList

/-- `SubScopesMatch`. -/
def subScopesMatch (scopes : List Scope) : Bool :=
  let count := scopes.countP fun s => 0 < f.subType.utf8ByteSize && f.subType = s.subType
  let subScopeNameMatched := scopes.any f.nameMatches
  if 0 < f.subType.utf8ByteSize && f.step = 0 && (count : Int) ≠ f.num then false
  else if 0 < f.subScopeMask.utf8ByteSize && !subScopeNameMatched then false
  else true

/-- `ScopeFeature::Match`, for a scope and those below it. -/
def matchScope (s : Scope) (allSubScopes : List Scope) : Bool :=
  if f.suffix.utf8ByteSize > s.name.utf8ByteSize then false
  else if 0 < f.suffix.utf8ByteSize && f.suffix ≠ ScopeImpl.lastName s.name then false
  else f.subScopesMatch allSubScopes

end ScopeFeature

/-! ## Patterns -/

/-- The features of a pattern, and the sub type it gives. -/
structure ScopePatternImpl where
  subType : String := ""
  nodeOptypeFeatures : List NodeOpTypeFeature := []
  nodeAttrFeatures : List NodeAttrFeature := []
  scopesFeatures : List ScopeFeature := []

namespace ScopePatternImpl

variable (p : ScopePatternImpl) (order : HashOrder)

/-- The scopes below one. A tree has no more of them than scopes were allocated, and what a scope keeps of them is what it finds. -/
def subScopesOf (t : ScopeTree) (s : ScopeId) : List ScopeId := ((t.getAllSubScopes order t.next s).map Prod.fst).getD []

/-- `ScopePatternImpl::Match`. A scope with a `_Retval` operator is not matched. -/
def matchScope (t : ScopeTree) (s : ScopeId) : Bool :=
  p.nodeOptypeFeatures.all (fun f => f.matchScope (t.scope s)) && p.nodeAttrFeatures.all (fun f => f.matchScope (t.scope s)) &&
    p.scopesFeatures.all (fun f => f.matchScope (t.scope s) ((subScopesOf order t s).map t.scope)) &&
    NodeOpTypeFeature.matchScope { nodeType := "_Retval", num := -1 } (t.scope s)

/-- The pattern as `MatchOneScope` uses it. -/
def toPattern : ScopePattern := { subType := p.subType, matchScope := p.matchScope order }

end ScopePatternImpl

end Metadef
