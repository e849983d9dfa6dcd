import Metadef.Lemmas.NewConsts
import Metadef.Lib.PartialMaps
import Metadef.Theorems.NonConstInputs

/-!
# Setting weights and reading them

`GetWeights` reads the weight of a constant itself, of the constant a place holder or a Data node stands for, or of the constants that
feed a node. `SetWeights` knows the type Const and the constants that feed the node, and makes new ones for the weights that are left.
-/

namespace Metadef

open List Option NonConstInputsWitness

open OpDescUtils

/-- Setting weights, as many as are read, leaves them to be read in the same order, and no link is changed. -/
def SetsAsRead (x : WeightMarks) (tid : Nat) (s : WeightHeap) (n : NodeId) (w : List Tensor) : Prop :=
  ∀ s', setWeights x tid n w s = some (true, s') → getWeights x s' n = w ∧ ∀ a, s'.heap.peers a = s.heap.peers a

/-- A node whose weight is read from one descriptor: it or what it stands for is a constant, or it is a Data node. -/
def ReadsOwn (x : WeightMarks) (h : Heap) (n : NodeId) : Prop :=
  ((h.op (weightOp x h n)).getType = "Const" ∨ (h.op (weightOp x h n)).getType = "Constant") ∨ Node.getType h n = "Data"

instance (x : WeightMarks) (h : Heap) (n : NodeId) : Decidable (ReadsOwn x h n) := inferInstanceAs (Decidable (_ ∨ _))

/-- The descriptor the weight of such a node is read from. -/
def ownWeightOp (x : WeightMarks) (h : Heap) (n : NodeId) : Option OpId :=
  if (h.op (weightOp x h n)).getType = "Const" ∨ (h.op (weightOp x h n)).getType = "Constant" then some (weightOp x h n)
  else if Node.getType h n = "Data" then
    ((NodeUtils.getParentInput x.toInputMarks h n).filter (Node.isConst h)).map fun parent => (h.node parent).op
  else none

/-- The weights go where they are read from. Constants that share a descriptor are given one tensor. A weight that is read from one
descriptor goes to a constant input over that descriptor, or the constant input is given what is read; without a constant input, no
new one can be linked. -/
structure SetInPlace (x : WeightMarks) (s : WeightHeap) (n : NodeId) (w : List Tensor) : Prop where
  shared : ¬ReadsOwn x s.heap n → ∀ e ∈ (getConstInputs x.toInputMarks s.heap n).zip w,
    ∀ e' ∈ (getConstInputs x.toInputMarks s.heap n).zip w, (s.heap.node e.1).op = (s.heap.node e'.1).op → e.2 = e'.2
  fed : ∀ o t c, ownWeightOp x s.heap n = some o → s.weight o = .tensor t → getConstInputs x.toInputMarks s.heap n = [c] →
    (s.heap.node c).op = o ∨ w = [t]
  unfed : ∀ o t, ownWeightOp x s.heap n = some o → s.weight o = .tensor t → getConstInputs x.toInputMarks s.heap n = [] →
    (s.heap.node n).ownerGraph = none ∨ ((s.heap.desc n).addInputDesc {}).1 = false

namespace WeightsReadAux

open Cmd GuardedWrites PartialMaps WrittenWeightsAux

variable {x : WeightMarks} {tid : Nat} {s : WeightHeap} {n : NodeId} {w : List Tensor}

/-! ## Reading -/

theorem map_eq_map_iff {α β γ : Type} {f : α → γ} {g : β → γ} {l : List α} {l' : List β} (hlen : l.length = l'.length) :
    l.map f = l'.map g ↔ ∀ e ∈ l.zip l', f e.1 = g e.2 := by
  rw [← forall₂_eq_eq_eq, forall₂_map_left_iff, forall₂_map_right_iff, forall₂_iff_zip]
  exact ⟨fun h e he => h.2 he, fun h => ⟨hlen, fun {a b} hab => h (a, b) hab⟩⟩

theorem mutableWeightsOf_eq_some {o : OpId} {t : Tensor} : mutableWeightsOf s o = some t ↔ s.weight o = .tensor t := by
  unfold mutableWeightsOf
  cases s.weight o <;> simp

/-- A weight read from one descriptor. -/
theorem getWeights_of_own (hown : ReadsOwn x s.heap n) :
    getWeights x s n = ((ownWeightOp x s.heap n).bind (mutableWeightsOf s)).toList := by
  unfold getWeights ownWeightOp
  by_cases hconst : (s.heap.op (weightOp x s.heap n)).getType = "Const" ∨ (s.heap.op (weightOp x s.heap n)).getType = "Constant"
  · simp only [if_pos hconst, bind_some]
  · have hdata : Node.getType s.heap n = "Data" := hown.resolve_left hconst
    simp only [if_neg hconst, if_pos hdata]
    cases NodeUtils.getParentInput x.toInputMarks s.heap n with
    | none => rfl
    | some parent => by_cases hp : Node.isConst s.heap parent = true <;> simp [hp, Option.filter]

/-- The weights read from the constants that feed a node. -/
theorem getWeights_of_not_own (hown : ¬ReadsOwn x s.heap n) :
    getWeights x s n = ((getConstInputs x.toInputMarks s.heap n).mapM fun c => mutableWeightsOf s (s.heap.node c).op).getD [] := by
  obtain ⟨hconst, hdata⟩ := not_or.mp hown
  simp only [getWeights, if_neg hconst, if_neg hdata]

/-- A Const reads its own weight. -/
theorem own_of_const (hc : Node.getType s.heap n = "Const") : ReadsOwn x s.heap n ∧ ownWeightOp x s.heap n = some
    (s.heap.node n).op := by
  have hop : weightOp x s.heap n = (s.heap.node n).op := by
    unfold weightOp
    rw [if_neg]
    rw [hc]
    exact fun h => absurd h.1 (by decide)
  have htype : (s.heap.op (weightOp x s.heap n)).getType = "Const" ∨ (s.heap.op (weightOp x s.heap n)).getType = "Constant" := by
    rw [hop]
    exact .inl hc
  exact ⟨.inl htype, by rw [ownWeightOp, if_pos htype, hop]⟩

/-! ## Setting -/

theorem setsAsRead_of_failed (hf : setWeights x tid n w s = some (false, s)) : SetsAsRead x tid s n w := by
  intro s' hs'
  rw [hf] at hs'
  cases hs'

/-- A Const that has a weight takes another. -/
theorem setsAsRead_of_const (hc : Node.getType s.heap n = "Const") (hlen : w.length = (getWeights x s n).length) :
    SetsAsRead x tid s n w := by
  obtain ⟨hown, hop⟩ := own_of_const (x := x) hc
  rw [getWeights_of_own hown, hop, bind_some] at hlen
  cases hweight : mutableWeightsOf s (s.heap.node n).op with
  | none =>
    rw [hweight] at hlen
    obtain rfl := length_eq_zero_iff.mp hlen
    exact setsAsRead_of_failed (setWeights_nil_of_const hc)
  | some old =>
    rw [hweight] at hlen
    obtain ⟨t, rfl⟩ := length_eq_one_iff.mp hlen
    have htensor := mutableWeightsOf_eq_some.mp hweight
    intro s' hs'
    rw [setWeights_of_const hc, Option.some.injEq, Prod.mk.injEq] at hs'
    obtain ⟨-, rfl⟩ := hs'
    have hown' : ReadsOwn x (s.written [((s.heap.node n).op, t)]).heap n := hown
    have hread : mutableWeightsOf (s.written [((s.heap.node n).op, t)]) (s.heap.node n).op = some t :=
      mutableWeightsOf_eq_some.mpr (written_self (by simp [htensor]) t)
    refine ⟨?_, fun _ => rfl⟩
    rw [getWeights_of_own hown', written_heap, hop, bind_some, hread]
    rfl

/-- The weights of the constants that feed a node, as many as these, are all read afterwards when those over one descriptor agree. -/
theorem setsAsRead_of_list (hc : Node.getType s.heap n ≠ "Const") (hown : ¬ReadsOwn x s.heap n)
    (hlen : w.length = (getWeights x s n).length) :
    SetsAsRead x tid s n w ↔ ∀ e ∈ (getConstInputs x.toInputMarks s.heap n).zip w,
      ∀ e' ∈ (getConstInputs x.toInputMarks s.heap n).zip w, (s.heap.node e.1).op = (s.heap.node e'.1).op → e.2 = e'.2 := by
  rw [getWeights_of_not_own hown] at hlen
  generalize hconsts : getConstInputs x.toInputMarks s.heap n = consts at hlen ⊢
  cases hread : consts.mapM fun c => mutableWeightsOf s (s.heap.node c).op with
  | none =>
    -- none is read, so none is given, which is too few
    rw [hread] at hlen
    obtain rfl := length_eq_zero_iff.mp hlen
    refine iff_of_true (setsAsRead_of_failed (setWeights_of_lt hc ?_)) (by simp)
    rw [hconsts]
    refine Nat.pos_of_ne_zero fun hzero => ?_
    rw [length_eq_zero_iff.mp hzero] at hread
    cases hread
  | some ts =>
    rw [hread, getD_some] at hlen
    have hmap := mapM_eq_some_iff.mp hread
    have hlen' : consts.length = w.length := by
      have hlengths := congrArg List.length hmap
      rw [length_map, length_map] at hlengths
      rw [hlen, hlengths]
    have hrun : setWeights x tid n w s = some (true, s.written ((consts.zip w).map fun e => ((s.heap.node e.1).op, e.2))) := by
      rw [setWeights_of_le hc (by rw [hconsts, hlen']), hconsts, hlen', drop_length]
      rfl
    generalize hafter : s.written ((consts.zip w).map fun e => ((s.heap.node e.1).op, e.2)) = s₁ at hrun
    have hheap : s₁.heap = s.heap := by rw [← hafter]; rfl
    -- what is read of all constants is given when each has what it is given
    have hset : SetsAsRead x tid s n w ↔ consts.map (fun c => mutableWeightsOf s₁ (s.heap.node c).op) = w.map some := by
      have hget : getWeights x s₁ n = (consts.mapM fun c => mutableWeightsOf s₁ (s.heap.node c).op).getD [] := by
        rw [getWeights_of_not_own (by rwa [hheap]), hheap, hconsts]
      rw [← mapM_eq_some_iff]
      refine ⟨fun hsets => ?_, fun hw s' hs' => ?_⟩
      · have hw := (hsets s₁ hrun).1
        rw [hget] at hw
        cases hnew : consts.mapM fun c => mutableWeightsOf s₁ (s.heap.node c).op with
        | some ts' => rw [← hw, hnew, getD_some]
        | none =>
          rw [hnew, getD_none] at hw
          rw [← hw] at hlen'
          rw [length_eq_zero_iff.mp hlen'] at hnew
          cases hnew
      · rw [hrun] at hs'
        cases hs'
        exact ⟨by rw [hget, hw, getD_some], fun a => by rw [hheap]⟩
    have hwrites := @forall_writeAll_iff _ _ _ (· = WeightAttr.other) _ s.weight
      ((consts.zip w).map fun e => ((s.heap.node e.1).op, WeightAttr.tensor e.2)) ?_ ?_
    · rw [hset, map_eq_map_iff hlen']
      simp only [List.forall_mem_map, WeightAttr.tensor.injEq] at hwrites
      rw [← hwrites]
      refine forall₂_congr fun e _ => ?_
      rw [mutableWeightsOf_eq_some, ← hafter, WeightHeap.written, List.map_map]
      rfl
    · intro e he
      obtain ⟨p, hp, rfl⟩ := List.mem_map.mp he
      obtain ⟨t, -, ht⟩ : ∃ t ∈ ts, some t = mutableWeightsOf s (s.heap.node p.1).op := by
        rw [← List.mem_map, ← hmap]
        exact List.mem_map.mpr ⟨p.1, (of_mem_zip hp).1, rfl⟩
      simp [mutableWeightsOf_eq_some.mp ht.symm]
    · intro e he
      obtain ⟨p, -, rfl⟩ := List.mem_map.mp he
      simp

/-- A weight read from one descriptor is read afterwards when it went there, or was given again, and no constant was made. -/
theorem setsAsRead_of_own (hs : s.heap.Sound) (hn : n < s.heap.nodeCount) (ho : (s.heap.node n).op < s.heap.opCount)
    (hc : Node.getType s.heap n ≠ "Const") (hown : ReadsOwn x s.heap n) (hlen : w.length = (getWeights x s n).length) :
    SetsAsRead x tid s n w ↔ ∀ o t, ownWeightOp x s.heap n = some o → s.weight o = .tensor t →
      (∀ c, getConstInputs x.toInputMarks s.heap n = [c] → (s.heap.node c).op = o ∨ w = [t]) ∧
      (getConstInputs x.toInputMarks s.heap n = [] →
        (s.heap.node n).ownerGraph = none ∨ ((s.heap.desc n).addInputDesc {}).1 = false) := by
  rw [getWeights_of_own hown] at hlen
  cases hread : (ownWeightOp x s.heap n).bind (mutableWeightsOf s) with
  | none =>
    -- none is read and none is given: there is no constant to write, or there are too few weights
    rw [hread] at hlen
    obtain rfl := length_eq_zero_iff.mp hlen
    refine iff_of_true ?_ fun o t ho ht => ?_
    · by_cases hconsts : getConstInputs x.toInputMarks s.heap n = []
      · have hrun : setWeights x tid n [] s = some (true, s) := by
          rw [setWeights_of_le hc (by rw [hconsts]; exact Nat.le_refl _), hconsts]
          rfl
        intro s' hs'
        rw [hrun] at hs'
        cases hs'
        exact ⟨by rw [getWeights_of_own hown, hread]; rfl, fun _ => rfl⟩
      · exact setsAsRead_of_failed (setWeights_of_lt hc (length_pos_of_ne_nil hconsts))
    · rw [ho, bind_some, mutableWeightsOf_eq_some.mpr ht] at hread
      cases hread
  | some old =>
    rw [hread] at hlen
    obtain ⟨t, rfl⟩ := length_eq_one_iff.mp hlen
    obtain ⟨o, hop, hold⟩ := bind_eq_some_iff.mp hread
    have htensor := mutableWeightsOf_eq_some.mp hold
    have hone : (∀ o' t', ownWeightOp x s.heap n = some o' → s.weight o' = .tensor t' →
        (∀ c, getConstInputs x.toInputMarks s.heap n = [c] → (s.heap.node c).op = o' ∨ [t] = [t']) ∧
        (getConstInputs x.toInputMarks s.heap n = [] →
          (s.heap.node n).ownerGraph = none ∨ ((s.heap.desc n).addInputDesc {}).1 = false)) ↔
        (∀ c, getConstInputs x.toInputMarks s.heap n = [c] → (s.heap.node c).op = o ∨ t = old) ∧
        (getConstInputs x.toInputMarks s.heap n = [] →
          (s.heap.node n).ownerGraph = none ∨ ((s.heap.desc n).addInputDesc {}).1 = false) := by
      refine ⟨fun hall => ?_, fun hall o' t' ho' ht' => ?_⟩
      · have hspec := hall o old hop htensor
        simpa only [List.cons.injEq, and_true] using hspec
      · obtain rfl : o = o' := Option.some.inj (hop.symm.trans ho')
        obtain rfl : old = t' := WeightAttr.tensor.inj (htensor.symm.trans ht')
        simpa only [List.cons.injEq, and_true] using hall
    rw [hone]
    cases hconsts : getConstInputs x.toInputMarks s.heap n with
    | nil =>
      obtain ⟨ok, u, hu, hok, hlinked⟩ := addConst_spec hs hn ho tid t
      have hrun : setWeights x tid n [t] s = some (ok, u) := by
        rw [setWeights_of_le hc (by rw [hconsts]; exact Nat.zero_le _), hconsts]
        simp only [zip_nil_left, map_nil, written_nil, length_nil, drop_zero, Cmd.eachOk]
        rw [bind_of_eq hu]
        cases ok <;> rfl
      have hfails : SetsAsRead x tid s n [t] ↔ ok = false := by
        refine ⟨fun hsets => Bool.eq_false_iff.mpr fun htrue => ?_, fun hfalse s' hs' => ?_⟩
        · obtain ⟨a, hbefore, hafter⟩ := hlinked htrue
          exact hafter (((hsets u (htrue ▸ hrun)).2 a).trans hbefore)
        · rw [hrun, hfalse] at hs'
          cases hs'
      rw [hfails, Bool.eq_false_iff, Ne, hok, not_and_or, not_not, Bool.not_eq_true]
      exact ⟨fun h => ⟨fun c hc => absurd hc.symm (cons_ne_nil c []), fun _ => h⟩, fun h => h.2 rfl⟩
    | cons c rest =>
      cases rest with
      | nil =>
        have hrun : setWeights x tid n [t] s = some (true, s.written [((s.heap.node c).op, t)]) := by
          rw [setWeights_of_le hc (by rw [hconsts]; exact Nat.le_refl _), hconsts]
          rfl
        have hown' : ReadsOwn x (s.written [((s.heap.node c).op, t)]).heap n := hown
        have hset : SetsAsRead x tid s n [t] ↔ (s.written [((s.heap.node c).op, t)]).weight o = .tensor t := by
          have hget : getWeights x (s.written [((s.heap.node c).op, t)]) n =
              (mutableWeightsOf (s.written [((s.heap.node c).op, t)]) o).toList := by
            rw [getWeights_of_own hown', written_heap, hop, bind_some]
          rw [← mutableWeightsOf_eq_some]
          refine ⟨fun hsets => ?_, fun hw s' hs' => ?_⟩
          · have hw := (hsets _ hrun).1
            rw [hget] at hw
            cases hm : mutableWeightsOf (s.written [((s.heap.node c).op, t)]) o with
            | none =>
              rw [hm] at hw
              cases hw
            | some t' =>
              rw [hm] at hw
              exact congrArg some (singleton_injective hw)
          · rw [hrun] at hs'
            cases hs'
            exact ⟨by rw [hget, hw]; rfl, fun _ => rfl⟩
        rw [hset]
        simp only [List.cons.injEq, and_true, forall_eq', reduceCtorEq, false_implies]
        by_cases hco : (s.heap.node c).op = o
        · rw [hco]
          exact iff_of_true (written_self (by simp [htensor]) t) (.inl rfl)
        · rw [written_of_ne hco, htensor, WeightAttr.tensor.injEq, or_iff_right hco, eq_comm]
      | cons c' consts =>
        refine iff_of_true (setsAsRead_of_failed (setWeights_of_lt hc ?_)) ⟨fun d hd => ?_, fun hnil => ?_⟩
        · rw [hconsts]
          exact Nat.succ_lt_succ (Nat.zero_lt_succ _)
        · cases hd
        · cases hnil

end WeightsReadAux

open WeightsReadAux in
/-- Setting weights leaves them to be read exactly for a Const, or where they go where they are read from. -/
theorem setsAsRead_iff {x : WeightMarks} {tid : Nat} {s : WeightHeap} {n : NodeId} {w : List Tensor} (hs : s.heap.Sound)
    (hn : n < s.heap.nodeCount) (ho : (s.heap.node n).op < s.heap.opCount) (hlen : w.length = (getWeights x s n).length) :
    SetsAsRead x tid s n w ↔ Node.getType s.heap n = "Const" ∨ SetInPlace x s n w := by
  by_cases hc : Node.getType s.heap n = "Const"
  · exact iff_of_true (setsAsRead_of_const hc hlen) (.inl hc)
  · rw [or_iff_right hc]
    by_cases hown : ReadsOwn x s.heap n
    · rw [setsAsRead_of_own hs hn ho hc hown hlen]
      exact ⟨fun h => ⟨fun hnot => absurd hown hnot, fun o t c ho ht hcs => (h o t ho ht).1 c hcs, fun o t ho ht hcs =>
        (h o t ho ht).2 hcs⟩,
        fun h o t ho ht => ⟨fun c hcs => h.fed o t c ho ht hcs, fun hcs => h.unfed o t ho ht hcs⟩⟩
    · have hnone : ownWeightOp x s.heap n = none := by
        obtain ⟨hconst, hdata⟩ := not_or.mp hown
        rw [ownWeightOp, if_neg hconst, if_neg hdata]
      rw [setsAsRead_of_list hc hown hlen]
      refine ⟨fun h => ⟨fun _ => h, ?_, ?_⟩, fun h => h.shared hown⟩
      · intro o t c ho
        rw [hnone] at ho
        cases ho
      · intro o t ho
        rw [hnone] at ho
        cases ho

namespace WeightsReadWitness

/-- The nodes of the inputs that are not constant. The Const has a weight. -/
def weights : WeightHeap where
  heap := NonConstInputsWitness.heap
  weight o := if o = 0 then .tensor {} else .unset

def marks : WeightMarks := { NonConstInputsWitness.marks with }

end WeightsReadWitness

open WeightsReadWitness in
/-- A Relu behind a Data node that stands for a Const: the weight of the Const is set and read. -/
theorem setsAsRead_relu : SetsAsRead marks 0 weights 3 [{ tensorData := [1] }] := by
  have hconsts : getConstInputs marks.toInputMarks weights.heap 3 = [0] := by decide +kernel
  have hown : ¬ReadsOwn marks weights.heap 3 := by decide +kernel
  have hnone : ownWeightOp marks weights.heap 3 = none := by decide +kernel
  refine (setsAsRead_iff sound (by decide +kernel) (by decide +kernel) (by decide +kernel)).mpr
    (.inr ⟨fun _ e he e' he' _ => ?_, fun o t c ho => ?_, fun o t ho => ?_⟩)
  · rw [hconsts] at he he'
    rw [mem_singleton.mp he, mem_singleton.mp he']
  · rw [hnone] at ho
    cases ho
  · rw [hnone] at ho
    cases ho

open WeightsReadWitness in
/-- The Data node itself reads the weight of the Const; setting it makes a new constant that feeds the Data node. -/
theorem not_setsAsRead : ¬∀ (x : WeightMarks) (tid : Nat) (s : WeightHeap) (n : NodeId) (w : List Tensor), s.heap.Sound →
    n < s.heap.nodeCount → (s.heap.node n).op < s.heap.opCount → w.length = (getWeights x s n).length → SetsAsRead x tid s n w := by
  intro hall
  have hsets := hall marks 0 weights 2 [{ tensorData := [1] }] sound (by decide +kernel) (by decide +kernel)
    (by decide +kernel)
  obtain ⟨s', hs', hread⟩ : ∃ s', setWeights marks 0 2 [{ tensorData := [1] }] weights = some (true, s') ∧
      decide (getWeights marks s' 2 ≠ [{ tensorData := [1] }]) = true := Cmd.exists_of_any (by decide +kernel)
  exact of_decide_eq_true hread (hsets s' hs').1

end Metadef
