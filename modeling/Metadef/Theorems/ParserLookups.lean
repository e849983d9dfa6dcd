import Mathlib.Data.List.Induction
import Mathlib.Data.List.ReduceOption
import Mathlib.Data.String.Basic
import Metadef.OpRegistry

/-!
# Looking up parsers

The first registration with a key is the one its maps hold. The key of a pair of types is also that of every other pair that joins
to the same text, so a lookup is right when no pair is found under the text of another, or when it makes no difference.
-/

namespace Metadef

open List Option OrderedMap

variable {T : ParserTypes}

namespace OpRegistry

/-- The registry after a run of registrations. -/
def registerAll (calls : List (Option (OpRegistrationData T))) : OpRegistry T := calls.foldl (fun r c => (r.register c).2) {}

/-- The first registration of a pair of types, with an original type, and with a pair that has a key. -/
def firstPair (regs : List (OpRegistrationData T)) (omType oriType : String) : Option (OpRegistrationData T) :=
  regs.find? fun d => d.omOptype = omType ∧ oriType ∈ d.oriOptypeSet

def firstOri (regs : List (OpRegistrationData T)) (oriType : String) : Option (OpRegistrationData T) :=
  regs.find? fun d => oriType ∈ d.oriOptypeSet

def firstKey (regs : List (OpRegistrationData T)) (key : String) : Option (OpRegistrationData T) :=
  regs.find? fun d => ∃ o ∈ d.oriOptypeSet, getParserKey d.omOptype o = key

/-- Every lookup finds what was registered for its types first, and nothing where nothing was. -/
structure FindsFirst (regs : List (OpRegistrationData T)) (r : OpRegistry T) : Prop where
  parseParam : ∀ om ori, r.getParseParamFunc om ori = (firstPair regs om ori).bind (·.parseParamFn)
  fusionParseParam : ∀ om ori, r.getFusionParseParamFunc om ori = (firstPair regs om ori).bind (·.fusionParseParamFn)
  fusionParseParamByOp : ∀ om ori, r.getFusionParseParamByOpFunc om ori = (firstPair regs om ori).bind (·.fusionParseParamByOpFn)
  parseOpToGraph : ∀ om ori, r.getParseOpToGraphFunc om ori = (firstPair regs om ori).bind (·.parseOpToGraphFn)
  omType : ∀ ori, r.getOmTypeByOriOpType ori = (firstOri regs ori).map (·.omOptype)
  parseParamByOperator : ∀ ori, r.getParseParamByOperatorFunc ori = (firstOri regs ori).bind (·.parseParamByOpFn)
  removeInputConfigure : ∀ ori, r.getRemoveInputConfigure ori = ((firstOri regs ori).map (·.removeInputConfigureVec)).getD []

/-- Two registrations, or one and none, have the same functions for a pair of types. -/
def SameFuncs (d e : Option (OpRegistrationData T)) : Prop :=
  d.bind (·.parseParamFn) = e.bind (·.parseParamFn) ∧ d.bind (·.fusionParseParamFn) = e.bind (·.fusionParseParamFn) ∧
    d.bind (·.fusionParseParamByOpFn) = e.bind (·.fusionParseParamByOpFn) ∧
    d.bind (·.parseOpToGraphFn) = e.bind (·.parseOpToGraphFn)

/-- No registration gets in the way of another by its key. The first one with a key that is also that of a pair it was not made for
has the functions of the first one made for that pair; the first one with an original type is the first with its key; and where an
original type is unknown, the first one with the key without an operator type has no function by operator. -/
structure KeysApart (regs : List (OpRegistrationData T)) : Prop where
  shared : ∀ d om ori, firstKey regs (getParserKey om ori) = some d → ¬ (d.omOptype = om ∧ ori ∈ d.oriOptypeSet) →
    SameFuncs (some d) (firstPair regs om ori)
  first : ∀ d ori, firstOri regs ori = some d → firstKey regs (getParserKey d.omOptype ori) = some d
  unknown : ∀ d ori, firstOri regs ori = none → firstKey regs (getParserKey "" ori) = some d → d.parseParamByOpFn = none

end OpRegistry

namespace ParserLookupsAux

open OpRegistry

variable {regs : List (OpRegistrationData T)} {d : OpRegistrationData T} {r : OpRegistry T} {om ori ori' key : String}

/-! ## What the maps hold -/

/-- The maps of a registry, told by the registration that owns each key and by the operator type of each original type. -/
structure Holds (r : OpRegistry T) (owner : String → Option (OpRegistrationData T)) (origin : String → Option String) : Prop where
  parseParam : ∀ key, r.opParseParamsFnMap.find key = (owner key).map (·.parseParamFn)
  parseParamByOp : ∀ key, r.parseParamsByOpFuncMap.find key = (owner key).map (·.parseParamByOpFn)
  fusionParseParam : ∀ key, r.fusionOpParseParamsFnMap.find key = (owner key).map (·.fusionParseParamFn)
  fusionParseParamByOp : ∀ key, r.fusionParseParamsByOpFnMap.find key = (owner key).map (·.fusionParseParamByOpFn)
  removeInputConfigure : ∀ key, r.removeInputConfigureMap.find key = (owner key).map (·.removeInputConfigureVec)
  parseOpToGraph : ∀ key, r.parseOpToGraphFnMap.find key = (owner key).map (·.parseOpToGraphFn)
  origin : ∀ ori, r.originTypeToOmType.find ori = origin ori

variable {owner : String → Option (OpRegistrationData T)} {origin : String → Option String}

theorem find_assign_owner {ν : Type} {m : OrderedMap String ν} {f : OpRegistrationData T → ν} {k : String}
    (hm : ∀ key, m.find key = (owner key).map f) (key : String) :
    (m.assign k (f d)).find key = ((if key = k then some d else owner key) : Option _).map f := by
  rw [find_assign]
  split
  · rfl
  · exact hm key

theorem getParserKey_inj : getParserKey om ori = getParserKey om ori' ↔ ori = ori' := by
  unfold getParserKey
  rw [String.append_right_inj]

/-- The functions of a registration under a key. -/
def enter (d : OpRegistrationData T) (r : OpRegistry T) (key : String) : OpRegistry T :=
  { r with
    opParseParamsFnMap := r.opParseParamsFnMap.assign key d.parseParamFn
    fusionOpParseParamsFnMap := r.fusionOpParseParamsFnMap.assign key d.fusionParseParamFn
    fusionParseParamsByOpFnMap := r.fusionParseParamsByOpFnMap.assign key d.fusionParseParamByOpFn
    parseParamsByOpFuncMap := r.parseParamsByOpFuncMap.assign key d.parseParamByOpFn
    removeInputConfigureMap := r.removeInputConfigureMap.assign key d.removeInputConfigureVec
    parseOpToGraphFnMap := r.parseOpToGraphFnMap.assign key d.parseOpToGraphFn }

/-- The operator type of an original type. -/
def originate (r : OpRegistry T) (ori om : String) : OpRegistry T :=
  { r with originTypeToOmType := r.originTypeToOmType.assign ori om }

theorem registerOri_eq (d : OpRegistrationData T) (r : OpRegistry T) (ori : String) : registerOri d r ori =
      if r.opParseParamsFnMap.contains (getParserKey d.omOptype ori) then r
      else if r.originTypeToOmType.contains ori then enter d r (getParserKey d.omOptype ori)
      else originate (enter d r (getParserKey d.omOptype ori)) ori d.omOptype :=
  rfl

theorem Holds.enter (h : Holds r owner origin) (d : OpRegistrationData T) (k : String) :
    Holds (enter d r k) (fun key => if key = k then some d else owner key) origin :=
  ⟨find_assign_owner h.parseParam, find_assign_owner h.parseParamByOp, find_assign_owner h.fusionParseParam,
    find_assign_owner h.fusionParseParamByOp, find_assign_owner h.removeInputConfigure, find_assign_owner h.parseOpToGraph, h.origin⟩

theorem Holds.originate (h : Holds r owner origin) (ori om : String) :
    Holds (originate r ori om) owner fun ori' => if ori' = ori then some om else origin ori' :=
  ⟨h.parseParam, h.parseParamByOp, h.fusionParseParam, h.fusionParseParamByOp, h.removeInputConfigure, h.parseOpToGraph,
    fun ori' => (find_assign ..).trans (by rw [h.origin])⟩

/-- One original type is entered when its key has no owner, and then both where it has no operator type. -/
theorem holds_registerOri (h : Holds r owner origin) (d : OpRegistrationData T) (ori : String) : Holds (registerOri d r ori)
      (fun key => (owner key).or (if key = getParserKey d.omOptype ori then some d else none))
      (fun ori' => (origin ori').or
        (if ori' = ori ∧ owner (getParserKey d.omOptype ori) = none then some d.omOptype else none)) := by
  have hfind := h.parseParam (getParserKey d.omOptype ori)
  rw [registerOri_eq]
  cases hown : owner (getParserKey d.omOptype ori) with
  | some e =>
    have hcontains : r.opParseParamsFnMap.contains (getParserKey d.omOptype ori) = true := by
      by_contra hnot
      rw [OrderedMap.find_eq_none.mpr (Bool.eq_false_iff.mpr hnot), hown] at hfind
      cases hfind
    have howner : (fun key => (owner key).or (if key = getParserKey d.omOptype ori then some d else none)) = owner := by
      funext key
      by_cases hkey : key = getParserKey d.omOptype ori
      · rw [hkey, hown, some_or]
      · rw [if_neg hkey, or_none]
    have horigin : (fun ori' => (origin ori').or (if ori' = ori ∧ some e = none then some d.omOptype else none)) = origin := by
      funext ori'
      rw [if_neg (fun hand => nomatch hand.2), or_none]
    rw [if_pos hcontains, howner, horigin]
    exact h
  | none =>
    have hcontains : r.opParseParamsFnMap.contains (getParserKey d.omOptype ori) = false := by
      rw [← find_eq_none, hfind, hown]
      rfl
    have howner : (fun key => (owner key).or (if key = getParserKey d.omOptype ori then some d else none)) =
        fun key => if key = getParserKey d.omOptype ori then some d else owner key := by
      funext key
      by_cases hkey : key = getParserKey d.omOptype ori
      · rw [if_pos hkey, if_pos hkey, hkey, hown, none_or]
      · rw [if_neg hkey, if_neg hkey, or_none]
    rw [if_neg (by rw [hcontains]; exact Bool.false_ne_true), howner]
    have hentered := h.enter d (getParserKey d.omOptype ori)
    cases horigin : r.originTypeToOmType.contains ori with
    | true =>
      have hkept : (fun ori' => (origin ori').or (if ori' = ori ∧ (none : Option (OpRegistrationData T)) = none then some d.omOptype
          else none)) = origin := by
        funext ori'
        by_cases heq : ori' = ori
        · have hsome : origin ori ≠ none := by
            rw [← h.origin, ne_eq, find_eq_none, horigin]
            exact Bool.noConfusion
          obtain ⟨x, hx⟩ := ne_none_iff_exists'.mp hsome
          rw [heq, hx, some_or]
        · rw [if_neg (fun hand => heq hand.1), or_none]
      rw [if_pos rfl, hkept]
      exact hentered
    | false =>
      have hnew : (fun ori' => (origin ori').or (if ori' = ori ∧ (none : Option (OpRegistrationData T)) = none then some d.omOptype
          else none)) = fun ori' => if ori' = ori then some d.omOptype else origin ori' := by
        funext ori'
        by_cases heq : ori' = ori
        · rw [if_pos heq, if_pos ⟨heq, rfl⟩, heq, ← h.origin, OrderedMap.find_eq_none.mpr horigin, none_or]
        · rw [if_neg heq, if_neg (fun hand => heq hand.1), or_none]
      rw [if_neg Bool.false_ne_true, hnew]
      exact hentered.originate ori d.omOptype

/-- A whole set of original types is entered as each of them is. -/
theorem holds_foldl (d : OpRegistrationData T) : ∀ (oris : List String) {r : OpRegistry T}
    {owner : String → Option (OpRegistrationData T)} {origin : String → Option String}, Holds r owner origin →
      Holds (oris.foldl (registerOri d) r)
        (fun key => (owner key).or (if ∃ o ∈ oris, getParserKey d.omOptype o = key then some d else none))
        (fun ori => (origin ori).or
          (if ori ∈ oris ∧ owner (getParserKey d.omOptype ori) = none then some d.omOptype else none)) := by
  intro oris
  induction oris with
  | nil =>
    intro r owner origin h
    simpa using h
  | cons o oris ih =>
    intro r owner origin h
    have hrest := ih (holds_registerOri h d o)
    rw [foldl_cons]
    convert hrest using 1
    · funext key
      rw [Option.or_assoc]
      congr 1
      by_cases hkey : key = getParserKey d.omOptype o
      · simp [hkey]
      · have hne : ¬ getParserKey d.omOptype o = key := fun heq => hkey heq.symm
        simp [hkey, hne]
    · funext ori
      rw [Option.or_assoc]
      congr 1
      by_cases heq : ori = o
      · subst heq
        by_cases hown : owner (getParserKey d.omOptype ori) = none
        · simp [hown]
        · simp [hown]
      · have hkey : ¬ getParserKey d.omOptype ori = getParserKey d.omOptype o := fun hk => heq (getParserKey_inj.mp hk)
        simp [heq, hkey]

/-- What a registration does past its original types is not told here. -/
theorem holds_register (h : Holds (d.oriOptypeSet.foldl (registerOri d) r) owner origin) :
    Holds (r.register (some d)).2 owner origin := by
  revert h
  unfold register
  dsimp only
  generalize d.oriOptypeSet.foldl (registerOri d) r = r'
  intro h
  split
  · exact h
  · exact ⟨h.parseParam, h.parseParamByOp, h.fusionParseParam, h.fusionParseParamByOp, h.removeInputConfigure, h.parseOpToGraph,
      h.origin⟩

/-! ## First registrations -/

/-- The first one with a property that the first one with a weaker property has is that one. -/
theorem find_of_weaker {α : Type} {p q : α → Bool} (hpq : ∀ a, p a = true → q a = true) {l : List α} {a : α}
    (hq : l.find? q = some a) (hp : p a = true) : l.find? p = some a := by
  obtain ⟨-, as, bs, rfl, hbefore⟩ := find?_eq_some_iff_append.mp hq
  refine find?_eq_some_iff_append.mpr ⟨hp, as, bs, rfl, fun b hb => ?_⟩
  have hnot := hbefore b hb
  rw [Bool.not_eq_true'] at hnot ⊢
  exact Bool.eq_false_iff.mpr fun h => Bool.eq_false_iff.mp hnot (hpq b h)

theorem firstPair_of_firstKey (h : firstKey regs (getParserKey om ori) = some d) (hown : d.omOptype = om ∧ ori ∈ d.oriOptypeSet) :
    firstPair regs om ori = some d := by
  refine find_of_weaker (fun e he => ?_) h (decide_eq_true hown)
  obtain ⟨rfl, hori⟩ := of_decide_eq_true he
  exact decide_eq_true ⟨ori, hori, rfl⟩

theorem firstPair_eq_none (h : firstKey regs (getParserKey om ori) = none) : firstPair regs om ori = none := by
  refine find?_eq_none.mpr fun e he hpair => find?_eq_none.mp h e he ?_
  obtain ⟨rfl, hori⟩ := of_decide_eq_true hpair
  exact decide_eq_true ⟨ori, hori, rfl⟩

theorem mem_of_firstOri (h : firstOri regs ori = some d) : d ∈ regs ∧ ori ∈ d.oriOptypeSet :=
  ⟨mem_of_find?_eq_some h, by simpa using (find?_eq_some_iff_append.mp h).1⟩

theorem firstKey_isSome (h : firstOri regs ori = some d) : ∃ e, firstKey regs (getParserKey d.omOptype ori) = some e := by
  obtain ⟨hd, hori⟩ := mem_of_firstOri h
  refine isSome_iff_exists.mp (find?_isSome.mpr ⟨d, hd, decide_eq_true ⟨ori, hori, rfl⟩⟩)

/-- Behind other registrations, one is the first where none of them is. -/
theorem find_snoc {α : Type} (p : α → Bool) (l : List α) (a : α) :
    (l ++ [a]).find? p = (l.find? p).or (if p a = true then some a else none) := by
  rw [find?_append, find?_cons, find?_nil]
  cases p a <;> rfl

/-! ## Runs -/

/-- The operator type of an original type is right exactly where the first registration with it owns its key. -/
def Originates (regs : List (OpRegistrationData T)) (origin : String → Option String) : Prop :=
  ∀ ori, (firstOri regs ori = none → origin ori = none) ∧
    ∀ d, firstOri regs ori = some d → (origin ori = some d.omOptype ↔ firstKey regs (getParserKey d.omOptype ori) = some d)

theorem originates_snoc (h : Originates regs origin) (d : OpRegistrationData T) :
    Originates (regs ++ [d]) fun ori => (origin ori).or
      (if ori ∈ d.oriOptypeSet ∧ firstKey regs (getParserKey d.omOptype ori) = none then some d.omOptype else none) := by
  have hfirst : ∀ ori, firstOri (regs ++ [d]) ori = (firstOri regs ori).or (if ori ∈ d.oriOptypeSet then some d else none) := by
    intro ori
    refine (find_snoc _ regs d).trans ?_
    simp [firstOri]
  have hkeys : ∀ key, firstKey (regs ++ [d]) key =
      (firstKey regs key).or (if ∃ o ∈ d.oriOptypeSet, getParserKey d.omOptype o = key then some d else none) := by
    intro key
    refine (find_snoc _ regs d).trans ?_
    simp [firstKey]
  intro ori
  obtain ⟨hnone, hsome⟩ := h ori
  dsimp only
  rw [hfirst]
  cases hold : firstOri regs ori with
  | some e =>
    -- an earlier registration has the original type, so its key has an owner, and the operator type of that key is not entered
    obtain ⟨c, hc⟩ := firstKey_isSome hold
    rw [some_or]
    refine ⟨nofun, fun e' he' => ?_⟩
    obtain rfl := Option.some.inj he'
    rw [hkeys, hc, some_or, ← hc, ← hsome e hold]
    cases horigin : origin ori with
    | some x => rw [some_or]
    | none =>
      rw [none_or]
      refine iff_of_false (fun hnew => ?_) nofun
      split at hnew
      next hand =>
        rw [← Option.some.inj hnew] at hc
        exact nomatch hand.2.symm.trans hc
      next => cases hnew
  | none =>
    rw [hnone hold, none_or, none_or]
    by_cases hori : ori ∈ d.oriOptypeSet
    · rw [if_pos hori]
      refine ⟨nofun, fun e' he' => ?_⟩
      obtain rfl := Option.some.inj he'
      have hkey : ∃ o ∈ d.oriOptypeSet, getParserKey d.omOptype o = getParserKey d.omOptype ori := ⟨ori, hori, rfl⟩
      rw [hkeys, if_pos hkey]
      cases hc : firstKey regs (getParserKey d.omOptype ori) with
      | none =>
        rw [if_pos ⟨hori, rfl⟩, none_or]
        exact iff_of_true rfl rfl
      | some c =>
        rw [if_neg (fun hand => nomatch hand.2), some_or]
        refine iff_of_false nofun ?_
        rintro ⟨⟩
        exact absurd (decide_eq_true hori) (find?_eq_none.mp hold d (mem_of_find?_eq_some hc))
    · rw [if_neg hori, if_neg fun hand => hori hand.1]
      exact ⟨fun _ => rfl, fun _ hd => by cases hd⟩

/-- What a run of registrations leaves. -/
theorem holds_registerAll (calls : List (Option (OpRegistrationData T))) :
    ∃ origin, Holds (registerAll calls) (firstKey calls.reduceOption) origin ∧ Originates calls.reduceOption origin := by
  induction calls using List.reverseRecOn with
  | nil =>
    have hempty : Holds (registerAll ([] : List (Option (OpRegistrationData T)))) (firstKey []) fun _ => none :=
      ⟨fun _ => rfl, fun _ => rfl, fun _ => rfl, fun _ => rfl, fun _ => rfl, fun _ => rfl, fun _ => rfl⟩
    exact ⟨_, hempty, fun _ => ⟨fun _ => rfl, fun _ hd => by cases hd⟩⟩
  | append_singleton calls c ih =>
    obtain ⟨origin, hholds, horigin⟩ := ih
    have hrun : registerAll (calls ++ [c]) = ((registerAll calls).register c).2 := by
      simp [registerAll, foldl_append]
    rw [hrun]
    cases c with
    | none =>
      rw [reduceOption_append, reduceOption_singleton]
      simpa [register] using ⟨origin, hholds, horigin⟩
    | some d =>
      have happend : (calls ++ [some d]).reduceOption = calls.reduceOption ++ [d] := by simp [reduceOption_append]
      have hset := holds_foldl d d.oriOptypeSet hholds
      have howner : (fun key => (firstKey calls.reduceOption key).or
          (if ∃ o ∈ d.oriOptypeSet, getParserKey d.omOptype o = key then some d else none)) =
            firstKey (calls.reduceOption ++ [d]) := by
        funext key
        refine ((find_snoc _ _ d).trans ?_).symm
        simp [firstKey]
      rw [howner] at hset
      rw [happend]
      refine ⟨_, ?_, originates_snoc horigin d⟩
      exact holds_register hset

end ParserLookupsAux

open OpRegistry ParserLookupsAux in
/-- After any run of registrations, every lookup finds what was registered first if and only if no registration gets in the way of
another by its key. -/
theorem parserLookups_iff (calls : List (Option (OpRegistrationData T))) :
    FindsFirst calls.reduceOption (registerAll calls) ↔ KeysApart calls.reduceOption := by
  obtain ⟨origin, hholds, horigin⟩ := holds_registerAll calls
  -- a lookup by a pair finds the owner of its key
  have hbind : ∀ {α : Type} {m : OrderedMap String (Option α)} {f : OpRegistrationData T → Option α},
      (∀ key, m.find key = (firstKey calls.reduceOption key).map f) →
        ∀ key, (m.find key).join = (firstKey calls.reduceOption key).bind f := by
    intro α m f hm key
    rw [hm]
    cases firstKey calls.reduceOption key <;> rfl
  have homType : ∀ ori, (registerAll calls).getOmTypeByOriOpType ori = origin ori := hholds.origin
  constructor
  · intro hfinds
    refine ⟨fun d om ori hd _ => ?_, fun d ori hd => ?_, fun d ori hnone hd => ?_⟩
    · rw [← hd]
      exact ⟨(hbind hholds.parseParam _).symm.trans (hfinds.parseParam om ori),
        (hbind hholds.fusionParseParam _).symm.trans (hfinds.fusionParseParam om ori),
        (hbind hholds.fusionParseParamByOp _).symm.trans (hfinds.fusionParseParamByOp om ori),
        (hbind hholds.parseOpToGraph _).symm.trans (hfinds.parseOpToGraph om ori)⟩
    · refine ((horigin ori).2 d hd).mp ?_
      rw [← homType, hfinds.omType, hd]
      rfl
    · have hlookup := hfinds.parseParamByOperator ori
      rw [getParseParamByOperatorFunc, hholds.origin, (horigin ori).1 hnone, hnone] at hlookup
      rw [getD_none, hbind hholds.parseParamByOp, hd] at hlookup
      exact hlookup
  · intro hapart
    have hpair : ∀ om ori,
        SameFuncs (firstKey calls.reduceOption (getParserKey om ori)) (firstPair calls.reduceOption om ori) := by
      intro om ori
      cases hd : firstKey calls.reduceOption (getParserKey om ori) with
      | none =>
        rw [firstPair_eq_none hd]
        exact ⟨rfl, rfl, rfl, rfl⟩
      | some d =>
        by_cases hown : d.omOptype = om ∧ ori ∈ d.oriOptypeSet
        · rw [firstPair_of_firstKey hd hown]
          exact ⟨rfl, rfl, rfl, rfl⟩
        · exact hapart.shared d om ori hd hown
    have hori : ∀ ori, origin ori = (firstOri calls.reduceOption ori).map (·.omOptype) := by
      intro ori
      cases hd : firstOri calls.reduceOption ori with
      | none => exact (horigin ori).1 hd
      | some d => exact ((horigin ori).2 d hd).mpr (hapart.first d ori hd)
    refine ⟨fun om ori => (hbind hholds.parseParam _).trans (hpair om ori).1,
      fun om ori => (hbind hholds.fusionParseParam _).trans (hpair om ori).2.1,
      fun om ori => (hbind hholds.fusionParseParamByOp _).trans (hpair om ori).2.2.1,
      fun om ori => (hbind hholds.parseOpToGraph _).trans (hpair om ori).2.2.2,
      fun ori => (homType ori).trans (hori ori), fun ori => ?_, fun ori => ?_⟩
    · rw [getParseParamByOperatorFunc, hholds.origin, hori, hbind hholds.parseParamByOp]
      cases hd : firstOri calls.reduceOption ori with
      | none =>
        cases hkey : firstKey calls.reduceOption (getParserKey "" ori) with
        | none => simp [hkey]
        | some d => simpa [hkey] using hapart.unknown d ori hd hkey
      | some d =>
        rw [map_some, getD_some, hapart.first d ori hd]
    · rw [getRemoveInputConfigure, hholds.origin, hori]
      cases hd : firstOri calls.reduceOption ori with
      | none => rfl
      | some d =>
        rw [map_some]
        dsimp only
        rw [hholds.removeInputConfigure, hapart.first d ori hd, map_some]

namespace ParserLookupsWitness

open OpRegistry

/-- Functions are known by numbers. -/
def numbered : ParserTypes := ⟨Nat, Nat, Nat, Nat, Nat, Nat, Nat, Nat⟩

instance : DecidableEq numbered.ParseParamFunc := inferInstanceAs (DecidableEq Nat)

/-- Two registrations whose pairs join to the same text. -/
def underscored : List (Option (OpRegistrationData numbered)) :=
  [some { omOptype := "A_B", oriOptypeSet := ["C"], parseParamFn := some (1 : Nat) },
    some { omOptype := "A", oriOptypeSet := ["B_C"], parseParamFn := some (2 : Nat) }]

/-- The second pair is given the function of the first, and its original type has no operator type. -/
theorem parserLookups_false : ¬ ∀ calls : List (Option (OpRegistrationData numbered)),
    FindsFirst calls.reduceOption (registerAll calls) := by
  intro h
  exact absurd ((h underscored).parseParam "A" "B_C") (by decide +kernel)

end ParserLookupsWitness

end Metadef
