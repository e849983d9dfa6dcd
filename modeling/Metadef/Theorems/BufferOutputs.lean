import Metadef.BufferFusionPattern
import Metadef.Lib.PartialMaps
import Metadef.Lib.Worklist

/-!
# Outputs of buffer fusion patterns

The outputs of a description are found through those that need not be there, with all that the claim on them says, unless one of these
leads back to itself: then the search does not end.
-/

namespace Metadef

open List Option

open Relation

namespace BufferFusionPattern

variable (p : BufferFusionPattern)

/-- An output that need not be there. -/
def Optional (d o : BufferDescId) : Prop := o ∈ (p.desc d).outputs ∧ (p.desc o).repeateMin = 0

/-- A description is an output of another, or of one that is reached from it through outputs that need not be there. -/
def Follows (d x : BufferDescId) : Prop := ∃ y, ReflTransGen p.Optional d y ∧ x ∈ (p.desc y).outputs

/-- What is asked of the outputs: the description itself where it may repeat, and whatever follows it. -/
def OutputsOf (d : BufferDescId) (ignoreRepeat : Bool) (l : List BufferDescId) : Prop :=
  ∀ x, x ∈ l ↔ (x = d ∧ ignoreRepeat = false ∧ (p.desc d).repeateCurr < (p.desc d).repeateMax) ∨ p.Follows d x

end BufferFusionPattern

namespace BufferOutputsAux

open BufferFusionPattern PartialMaps

variable {p : BufferFusionPattern} {d e o : BufferDescId}

/-! ## Patterns -/

theorem desc_setDesc (x : BufferFusionOpDesc) : (p.setDesc d x).desc e = if e = d ∧ d < p.ops.length then x else p.desc e := by
  rw [desc, desc, setDesc, getD_eq_getElem?_getD, getD_eq_getElem?_getD, getElem?_set]
  by_cases hed : d = e
  · subst hed
    by_cases hlt : d < p.ops.length
    · simp [hlt]
    · simp [hlt]
  · rw [if_neg hed, if_neg fun h => hed h.1.symm]

/-- Names lead to descriptions, and so do outputs. -/
structure Formed (p : BufferFusionPattern) : Prop where
  named : ∀ name d, p.getOpDesc name = some d → d < p.ops.length
  outputs : ∀ d, ∀ o ∈ (p.desc d).outputs, o < p.ops.length

variable {x : BufferFusionOpDesc} {fuel : Nat} {ignoreRepeat : Bool} {l : List BufferDescId}

theorem Formed.setDesc (h : Formed p) (hx : ∀ o ∈ x.outputs, o < p.ops.length) : Formed (p.setDesc d x) := by
  have hlen : (p.setDesc d x).ops.length = p.ops.length := length_set
  refine ⟨fun name e he => ?_, fun e o ho => ?_⟩
  · rw [hlen]
    exact h.named name e he
  · rw [desc_setDesc] at ho
    rw [hlen]
    split at ho
    · exact hx o ho
    · exact h.outputs e o ho

/-- Fields besides the descriptions and their names play no part. -/
theorem Formed.congr {q : BufferFusionPattern} (h : Formed p) (hops : q.ops = p.ops) (hmap : q.opMap = p.opMap) : Formed q := by
  refine ⟨fun name d hd => ?_, fun d o ho => ?_⟩
  · rw [hops]
    refine h.named name d ?_
    rwa [getOpDesc, hmap] at hd
  · rw [hops]
    refine h.outputs d o ?_
    rwa [desc, hops] at ho

theorem Formed.countErrorChecked (h : Formed p) : Formed p.countErrorChecked := by
  unfold BufferFusionPattern.countErrorChecked
  split
  · exact h
  · exact h.congr rfl rfl

theorem Formed.setDesc_same (h : Formed p) (hx : x.outputs = (p.desc d).outputs) : Formed (p.setDesc d x) := by
  refine h.setDesc ?_
  rw [hx]
  exact h.outputs d

/-- A new description has no outputs yet. -/
theorem Formed.push (h : Formed p) {op : BufferFusionOpDesc} (hop : op.outputs = []) (descName : String) :
    Formed { p with ops := p.ops ++ [op], opMap := p.opMap.assign descName p.ops.length } := by
  have hlen : (p.ops ++ [op]).length = p.ops.length + 1 := by simp
  refine ⟨fun name d hd => ?_, fun d o ho => ?_⟩
  · simp only [hlen]
    simp only [getOpDesc, OrderedMap.find_assign] at hd
    split at hd
    · cases hd
      exact Nat.lt_succ_self _
    · exact Nat.lt_succ_of_lt (h.named name d hd)
  · simp only [hlen]
    refine Nat.lt_succ_of_lt (h.outputs d o ?_)
    simp only [desc, getD_eq_getElem?_getD, getElem?_append] at ho ⊢
    split at ho
    · exact ho
    · rw [getElem?_singleton] at ho
      split at ho
      · rw [getD_some, hop] at ho
        cases ho
      · cases ho

theorem Formed.addOpDesc (h : Formed p) (descName : String) (types : List String) (repeateMin repeateMax groupId : Int) :
    Formed (p.addOpDesc descName types repeateMin repeateMax groupId) := by
  unfold BufferFusionPattern.addOpDesc
  split
  · exact h.congr rfl rfl
  · split
    · exact h.congr rfl rfl
    · split
      · exact h.congr rfl rfl
      · exact h.push rfl descName

theorem Formed.updateSkipStatus (h : Formed p) : Formed (p.updateSkipStatus d) := by
  unfold BufferFusionPattern.updateSkipStatus
  split
  next hmulti =>
    clear hmulti
    generalize (p.desc d).inputs = inputs
    induction inputs generalizing p with
    | nil => exact h
    | cons i inputs ih =>
      rw [foldl_cons]
      refine ih ?_
      dsimp only
      split
      · exact h.setDesc_same rfl
      · exact h
  next => exact h

theorem Formed.pushOutputs (d : BufferDescId) (relation : Int) (outputIds : List String) : ∀ {p : BufferFusionPattern}, Formed p →
    Formed (pushOutputs d relation outputIds p) := by
  induction outputIds with
  | nil => exact fun h => h
  | cons outputId outputIds ih =>
    intro p h
    rw [BufferFusionPattern.pushOutputs]
    cases hfind : p.getOpDesc outputId with
    | none => exact h.countErrorChecked
    | some output =>
      dsimp only
      split
      · exact ih h
      · have hlt := h.named outputId output hfind
        have h1 : Formed (p.setDesc d { p.desc d with outputs := (p.desc d).outputs ++ [output] }) := by
          refine h.setDesc fun o ho => ?_
          rcases mem_append.mp ho with ho | ho
          · exact h.outputs d o ho
          · rw [mem_singleton.mp ho]
            exact hlt
        split
        · exact h1.setDesc_same rfl
        · exact ih (h1.setDesc_same rfl)

theorem Formed.setOutputs (h : Formed p) (descName : String) (outputIds : List String) (relation : Int)
    (ignoreInputNum ignoreOutputNum : Bool) :
    Formed (p.setOutputs descName outputIds relation ignoreInputNum ignoreOutputNum) := by
  unfold BufferFusionPattern.setOutputs
  split
  · exact h.congr rfl rfl
  · cases p.getOpDesc descName with
    | none => exact h.congr rfl rfl
    | some d => exact Formed.pushOutputs d relation outputIds (Formed.updateSkipStatus (h.setDesc_same rfl))

theorem Formed.setHead (h : Formed p) (headIds : List String) : Formed (p.setHead headIds) := by
  have hpush : Formed (pushHeads headIds p).1 := by
    induction headIds generalizing p with
    | nil => exact h
    | cons headId headIds ih =>
      rw [pushHeads]
      cases p.getOpDesc headId with
      | none => exact h.countErrorChecked
      | some d =>
        dsimp only
        split
        · exact h.countErrorChecked
        · exact ih (h.congr rfl rfl)
  unfold BufferFusionPattern.setHead
  split
  · exact h.congr rfl rfl
  · generalize pushHeads headIds p = r at hpush
    obtain ⟨q, ok⟩ := r
    cases ok with
    | false => exact hpush
    | true =>
      dsimp only
      cases q.totalMin q.head 0 with
      | none => exact hpush
      | some total =>
        dsimp only
        split
        · exact hpush.congr rfl rfl
        · exact hpush

theorem Formed.run (h : Formed p) (c : BufferPatternCall) : Formed (c.run p) := by
  cases c with
  | addOpDesc descName types repeateMin repeateMax groupId => exact h.addOpDesc ..
  | setOutputs descName outputIds relation ignoreInputNum ignoreOutputNum => exact h.setOutputs ..
  | setHead headIds => exact h.setHead headIds
  | setRepeateCurr d repeateCurr => exact h.setDesc_same rfl

theorem formed_runAll (calls : List BufferPatternCall) : Formed (BufferPatternCall.runAll calls) := by
  have hstep : ∀ {p : BufferFusionPattern}, Formed p → Formed (calls.foldl BufferPatternCall.run p) := by
    induction calls with
    | nil => exact fun h => h
    | cons c calls ih => exact fun h => ih (h.run c)
  exact hstep ⟨nofun, fun d o ho => by cases d <;> cases ho⟩

/-! ## The search -/

/-- What the search does with an output. -/
def throughOutput (p : BufferFusionPattern) (fuel : Nat) (o : BufferDescId) : Option (List BufferDescId) :=
  if (p.desc o).repeateMin = 0 then (p.outputsOf fuel o true).map (o :: ·) else some [o]

theorem outputsOf_succ (fuel : Nat) (d : BufferDescId) (ignoreRepeat : Bool) :
    p.outputsOf (fuel + 1) d ignoreRepeat = ((p.desc d).outputs.mapM (throughOutput p fuel)).map fun l =>
      (if !ignoreRepeat && (p.desc d).repeateCurr < (p.desc d).repeateMax then [d] else []) ++ l.flatten := rfl

theorem outputsOf_mono {fuel' : Nat}
    (h : p.outputsOf fuel d ignoreRepeat = some l) (hle : fuel ≤ fuel') : p.outputsOf fuel' d ignoreRepeat = some l := by
  induction fuel generalizing fuel' d ignoreRepeat l with
  | zero => cases h
  | succ fuel ih =>
    obtain ⟨m, rfl⟩ : ∃ m, fuel' = m + 1 := ⟨fuel' - 1, by omega⟩
    rw [outputsOf_succ] at h ⊢
    obtain ⟨found, hfound, rfl⟩ := map_eq_some_iff.mp h
    rw [mapM_mono hfound fun o _ r hr => ?_]
    · rfl
    · rw [throughOutput] at hr ⊢
      split at hr
      · obtain ⟨below, hbelow, rfl⟩ := map_eq_some_iff.mp hr
        rename_i hmin
        rw [if_pos hmin, ih hbelow (by omega)]
        rfl
      · rename_i hmin
        rwa [if_neg hmin]

/-- A description follows another at once, or follows an output that need not be there. -/
theorem follows_iff {x : BufferDescId} : p.Follows d x ↔ x ∈ (p.desc d).outputs ∨ ∃ o, p.Optional d o ∧ p.Follows o x := by
  constructor
  · rintro ⟨y, hy, hx⟩
    rcases ReflTransGen.cases_head hy with rfl | ⟨o, ho, hoy⟩
    · exact .inl hx
    · exact .inr ⟨o, ho, y, hoy, hx⟩
  · rintro (hx | ⟨o, ho, y, hoy, hx⟩)
    · exact ⟨d, .refl, hx⟩
    · exact ⟨y, .head ho hoy, hx⟩

/-- What the search finds is what was asked. -/
theorem outputsOf_spec (h : p.outputsOf fuel d ignoreRepeat = some l) : p.OutputsOf d ignoreRepeat l := by
  induction fuel generalizing d ignoreRepeat l with
  | zero => cases h
  | succ fuel ih =>
    rw [outputsOf_succ] at h
    obtain ⟨found, hfound, rfl⟩ := map_eq_some_iff.mp h
    have hflat : ∀ x, x ∈ found.flatten ↔ p.Follows d x := by
      intro x
      rw [mem_flatten, follows_iff]
      constructor
      · rintro ⟨r, hr, hx⟩
        obtain ⟨o, ho, hthrough⟩ := (mem_mapM hfound r).mp hr
        rw [throughOutput] at hthrough
        split at hthrough
        next hmin =>
          obtain ⟨below, hbelow, rfl⟩ := map_eq_some_iff.mp hthrough
          rcases mem_cons.mp hx with rfl | hx
          · exact .inl ho
          · exact .inr ⟨o, ⟨ho, hmin⟩, ((ih hbelow x).mp hx).resolve_left fun hself => absurd hself.2.1 (by decide)⟩
        next =>
          cases hthrough
          rw [mem_singleton.mp hx]
          exact .inl ho
      · have hself : ∀ o ∈ (p.desc d).outputs, ∃ r ∈ found, o ∈ r := by
          intro o ho
          obtain ⟨r, hr, hthrough⟩ := exists_of_mapM hfound ho
          refine ⟨r, hr, ?_⟩
          rw [throughOutput] at hthrough
          split at hthrough
          · obtain ⟨below, -, rfl⟩ := map_eq_some_iff.mp hthrough
            exact mem_cons_self
          · cases hthrough
            exact mem_cons_self
        rintro (hx | ⟨o, ⟨ho, hmin⟩, hx⟩)
        · exact hself x hx
        · obtain ⟨r, hr, hthrough⟩ := exists_of_mapM hfound ho
          rw [throughOutput, if_pos hmin] at hthrough
          obtain ⟨below, hbelow, rfl⟩ := map_eq_some_iff.mp hthrough
          exact ⟨_, hr, mem_cons_of_mem o ((ih hbelow x).mpr (.inr hx))⟩
    intro x
    rw [mem_append, hflat]
    refine or_congr_left ?_
    cases ignoreRepeat with
    | true => simp
    | false =>
      by_cases hlt : (p.desc d).repeateCurr < (p.desc d).repeateMax <;> simp [hlt]

/-! ## Ending -/

/-- The outputs that need not be there. -/
def optionals (p : BufferFusionPattern) (d : BufferDescId) : Option (List BufferDescId) :=
  some ((p.desc d).outputs.filter fun o => (p.desc o).repeateMin = 0)

theorem child_iff : Worklist.Child (optionals p) o d ↔ p.Optional d o := by
  simp [Worklist.Child, optionals, Optional]

theorem acc_of_outputsOf (h : p.outputsOf fuel d ignoreRepeat = some l) : Acc (Worklist.Child (optionals p)) d := by
  induction fuel generalizing d ignoreRepeat l with
  | zero => cases h
  | succ fuel ih =>
    rw [outputsOf_succ] at h
    obtain ⟨found, hfound, -⟩ := map_eq_some_iff.mp h
    refine Acc.intro d fun o ho => ?_
    obtain ⟨ho, hmin⟩ := child_iff.mp ho
    obtain ⟨r, -, hthrough⟩ := exists_of_mapM hfound ho
    rw [throughOutput, if_pos hmin] at hthrough
    obtain ⟨below, hbelow, -⟩ := map_eq_some_iff.mp hthrough
    exact ih hbelow

/-- One bound is enough for all items of a list when each has one. -/
theorem exists_bound {α : Type} {P : α → Nat → Prop} (hmono : ∀ a m n, m ≤ n → P a m → P a n) {l : List α}
    (h : ∀ a ∈ l, ∃ n, P a n) : ∃ n, ∀ a ∈ l, P a n := by
  induction l with
  | nil => exact ⟨0, nofun⟩
  | cons a l ih =>
    obtain ⟨m, hm⟩ := h a mem_cons_self
    obtain ⟨n, hn⟩ := ih fun a ha => h a (mem_cons_of_mem _ ha)
    refine ⟨m + n, fun b hb => ?_⟩
    rcases mem_cons.mp hb with rfl | hb
    · exact hmono _ _ _ (Nat.le_add_right m n) hm
    · exact hmono _ _ _ (Nat.le_add_left n m) (hn b hb)

theorem outputsOf_of_acc (h : Acc (Worklist.Child (optionals p)) d) :
    ∃ fuel, ∀ ignoreRepeat, (p.outputsOf fuel d ignoreRepeat).isSome := by
  induction h with
  | intro d _ ih =>
    obtain ⟨fuel, hfuel⟩ : ∃ fuel, ∀ o ∈ (p.desc d).outputs, (throughOutput p fuel o).isSome := by
      refine exists_bound (fun o m n hmn hm => ?_) fun o ho => ?_
      · rw [throughOutput] at hm ⊢
        split
        next hmin =>
          rw [if_pos hmin, isSome_map] at hm
          obtain ⟨l, hl⟩ := isSome_iff_exists.mp hm
          rw [outputsOf_mono hl hmn]
          rfl
        next => rfl
      · by_cases hmin : (p.desc o).repeateMin = 0
        · obtain ⟨fuel, hfuel⟩ := ih o (child_iff.mpr ⟨ho, hmin⟩)
          refine ⟨fuel, ?_⟩
          rw [throughOutput, if_pos hmin, isSome_map]
          exact hfuel true
        · refine ⟨0, ?_⟩
          rw [throughOutput, if_neg hmin]
          rfl
    obtain ⟨found, hfound⟩ := exists_mapM hfuel
    exact ⟨fuel + 1, fun ignoreRepeat => by rw [outputsOf_succ, hfound]; rfl⟩

end BufferOutputsAux

open BufferFusionPattern BufferOutputsAux

/-! ## Outputs that need not be there -/

/-- The outputs of a description are found, and nothing else, exactly when no output that need not be there leads back to itself
through such, of those that are reached from the description through such. -/
theorem getOutputs_iff (calls : List BufferPatternCall) (d : BufferDescId) (outputs : List BufferDescId) (ignoreRepeat : Bool) :
    (∃ bound, ∀ fuel, bound ≤ fuel → ∃ l,
      (BufferPatternCall.runAll calls).getOutputs fuel (some d) outputs ignoreRepeat = some (true, outputs ++ l) ∧
        (BufferPatternCall.runAll calls).OutputsOf d ignoreRepeat l) ↔
      ∀ o, ReflTransGen (BufferPatternCall.runAll calls).Optional d o → ¬TransGen (BufferPatternCall.runAll calls).Optional o o := by
  generalize hp : BufferPatternCall.runAll calls = p
  have hformed : Formed p := hp ▸ formed_runAll calls
  have hacc : Acc (Worklist.Child (optionals p)) d ↔ ∀ o, ReflTransGen p.Optional d o → ¬TransGen p.Optional o o := by
    have hrel : (fun x y => Worklist.Child (optionals p) y x) = p.Optional := by
      funext x y
      exact propext child_iff
    have h := @Worklist.acc_iff_no_cycle _ (optionals p) d (List.range p.ops.length) fun o e hc =>
      mem_range.mpr (hformed.outputs e o (child_iff.mp hc).1)
    rw [Worklist.Reaches, hrel] at h
    exact h
  rw [← hacc]
  constructor
  · rintro ⟨bound, h⟩
    obtain ⟨l, hl, -⟩ := h bound (Nat.le_refl _)
    obtain ⟨found, hfound, -⟩ := map_eq_some_iff.mp hl
    exact acc_of_outputsOf hfound
  · intro h
    obtain ⟨bound, hbound⟩ := outputsOf_of_acc h
    obtain ⟨l, hl⟩ := isSome_iff_exists.mp (hbound ignoreRepeat)
    refine ⟨bound, fun fuel hle => ⟨l, ?_, outputsOf_spec hl⟩⟩
    rw [getOutputs, outputsOf_mono hl hle]
    rfl

/-! ## Two that follow each other -/

namespace BufferOutputsWitness

/-- Two ops that need not be there, each an output of the other. -/
def calls : List BufferPatternCall :=
  [.addOpDesc "a" ["Relu"] 0 1 (-1), .addOpDesc "b" ["Add"] 0 1 (-1), .setOutputs "a" ["b"] 1 false false,
    .setOutputs "b" ["a"] 1 false false]

/-- The search for the outputs of the first does not end. -/
theorem getOutputs_false : ¬∃ bound, ∀ fuel, bound ≤ fuel → ∃ l,
    (BufferPatternCall.runAll calls).getOutputs fuel (some 0) [] false = some (true, [] ++ l) ∧
      (BufferPatternCall.runAll calls).OutputsOf 0 false l := by
  rintro ⟨bound, h⟩
  obtain ⟨l, hl, -⟩ := h bound (Nat.le_refl _)
  obtain ⟨found, hfound, -⟩ := map_eq_some_iff.mp hl
  have hforth : (BufferPatternCall.runAll calls).Optional 0 1 := by
    unfold Optional
    decide +kernel
  have hback : (BufferPatternCall.runAll calls).Optional 1 0 := by
    unfold Optional
    decide +kernel
  exact Worklist.not_reaches_self (acc_of_outputsOf hfound) (.tail (.single (child_iff.mpr hforth)) (child_iff.mpr hback))

end BufferOutputsWitness

end Metadef
