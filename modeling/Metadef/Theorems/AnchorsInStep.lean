import Metadef.Lemmas.CallSteps
import Metadef.Lemmas.NewNodes
import Metadef.Theorems.DescriptorGroups

/-!
# Anchors and descriptors in step

A node starts with an anchor for each of its descriptors. `AppendInputAnchor` and `RemoveInputAnchor` count the valid descriptors on the
one side and the anchors on the other; the functions for outputs count all. A descriptor appended under a name that is there replaces
another input's, or is refused.
-/

namespace Metadef

open List OrderedMap Nat DescriptorAux Function Option

namespace DescSide

/-- The anchors of a side. -/
def kind : DescSide → AnchorKind
  | input => .inData
  | output => .outData

end DescSide

open DescSide

/-- Anchors and descriptors were appended as far as a number, behind those that were there. -/
structure Heap.AppendsInStep (s : DescSide) (h h' : Heap) (n : NodeId) (num : Nat) (ok : Bool) : Prop where
  counts : (h'.anchorsOf n s.kind).length = s.size (h'.desc n)
  anchors : (h.anchorsOf n s.kind).IsPrefix (h'.anchorsOf n s.kind)
  descs : (s.descs (h.desc n)).IsPrefix (s.descs (h'.desc n))
  number : ok = true → s.size (h'.desc n) = max (s.size (h.desc n)) num

/-- Anchors and descriptors were dropped down to a number, from the end. -/
structure Heap.DropsInStep (s : DescSide) (h h' : Heap) (n : NodeId) (num : Nat) (ok : Bool) : Prop where
  counts : (h'.anchorsOf n s.kind).length = s.size (h'.desc n)
  anchors : (h'.anchorsOf n s.kind).IsPrefix (h.anchorsOf n s.kind)
  descs : (s.descs (h'.desc n)).IsPrefix (s.descs (h.desc n))
  number : ok = true → s.size (h'.desc n) = min (s.size (h.desc n)) num

namespace OpDesc

/-- The first of the names made up for as many descriptors to be appended that is there. -/
def firstTaken (s : DescSide) (base : String) (op : OpDesc) (count : Nat) : Option Nat :=
  (List.range' (s.size op) count).find? fun k => (s.names op).contains (base ++ toString k)

/-- There are as many valid inputs as asked for; or all are valid and no name made up is there; or the first that is there comes when
there are as many inputs as asked for, and leads to one like those appended; or it comes first and leads to none. -/
def AppendsInputs (op : OpDesc) (num : Nat) : Prop :=
  num ≤ op.getInputsSize ∨
    match op.firstTaken .input "__input" (num - op.getInputsSize) with
    | none => op.getInputsSize = op.getAllInputsSize
    | some k => ∀ i, op.inputNameIdx.find ("__input" ++ toString k) = some i →
      if i < k then k = max op.getAllInputsSize num ∧ op.inputsDesc.getD i NodeUtils.dataDesc = NodeUtils.dataDesc
      else k = op.getAllInputsSize

/-- There are as many outputs as asked for, or a name made up that is there is the first. -/
def AppendsOutputs (op : OpDesc) (num : Nat) : Prop :=
  ∀ k, op.firstTaken .output "__output" (num - op.getOutputsSize) = some k → k = op.getOutputsSize

/-- There are no more inputs than asked for, or those to stay are valid and so is the last. -/
def DropsInputs (op : OpDesc) (num : Nat) : Prop :=
  op.getAllInputsSize ≤ num ∨ (∀ d ∈ op.inputsDesc.take num, d.isValid = true) ∧ ∀ d ∈ op.inputsDesc.getLast?, d.isValid = true

end OpDesc

namespace AnchorsInStepAux

open NodeUtils

variable {s : DescSide} {op op' : OpDesc} {base : String} {num d j : Nat}

/-! ## Appending descriptors -/

/-- As many descriptors were appended under names made from their positions. -/
structure Pushed (s : DescSide) (base : String) (op op' : OpDesc) (j : Nat) : Prop where
  descs : s.descs op' = s.descs op ++ List.replicate j dataDesc
  names : ∀ k, s.size op + j ≤ k → (s.names op').find (base ++ toString k) = (s.names op).find (base ++ toString k)

theorem Pushed.contains (hp : Pushed s base op op' j) {k : Nat} (hk : s.size op + j ≤ k) :
    (s.names op').contains (base ++ toString k) = (s.names op).contains (base ++ toString k) := by
  rw [Bool.eq_iff_iff, ← not_iff_not, Bool.not_eq_true, Bool.not_eq_true, ← find_eq_none, ← find_eq_none,
    hp.names k hk]

theorem Pushed.size (hp : Pushed s base op op' j) : s.size op' = s.size op + j := by
  rw [← length_descs, hp.descs, length_append, length_replicate, length_descs]

/-- A function that appends a descriptor under the name made from its position when the name is new. -/
def Pushes (s : DescSide) (base : String) (add : OpDesc → Bool × OpDesc) : Prop :=
  ∀ op, (s.names op).contains (base ++ toString (s.size op)) = false → ∃ op', add op = (true, op') ∧ Pushed s base op op' 1

theorem pushes_addInputDesc : Pushes .input "__input" (·.addInputDesc dataDesc) := by
  intro op hnew
  refine ⟨_, if_neg (Bool.eq_false_iff.mp hnew), rfl, fun k hk => ?_⟩
  refine (find_insert ..).trans (if_neg fun he => ?_)
  have := numbered_inj "__input" he.1
  exact absurd (this ▸ hk) (not_succ_le_self _)

theorem pushes_addOutputDesc : Pushes .output "__output" (·.addOutputDesc dataDesc) := by
  intro op hnew
  refine ⟨_, if_neg (Bool.eq_false_iff.mp hnew), rfl, fun k hk => ?_⟩
  refine (find_insert ..).trans (if_neg fun he => ?_)
  have := numbered_inj "__output" he.1
  exact absurd (this ▸ hk) (not_succ_le_self _)

/-- Descriptors are appended up to the first name that is there. -/
theorem addDescs_run {add : OpDesc → Bool × OpDesc} (hadd : Pushes s base add) (d : Nat) : ∀ op : OpDesc,
    match op.firstTaken s base d with
    | none => ∃ op', addDescs add d op = (true, op') ∧ Pushed s base op op' d
    | some k => ∃ j op', s.size op + j = k ∧ j < d ∧ (s.names op).contains (base ++ toString k) = true ∧
        addDescs add d op = addDescs add (d - j) op' ∧ Pushed s base op op' j := by
  induction d with
  | zero => exact fun op => ⟨op, rfl, by simp, fun _ _ => rfl⟩
  | succ d ih =>
    intro op
    rw [OpDesc.firstTaken, range'_succ, find?_cons]
    cases hk : (s.names op).contains (base ++ toString (s.size op)) with
    | true => exact ⟨0, op, rfl, succ_pos d, hk, rfl, by simp, fun _ _ => rfl⟩
    | false =>
      obtain ⟨op₁, hop₁, hp₁⟩ := hadd op hk
      have hfirst : (List.range' (s.size op + 1) d).find? (fun k => (s.names op).contains (base ++ toString k)) =
          op₁.firstTaken s base d := by
        rw [OpDesc.firstTaken, hp₁.size]
        refine find?_congr fun k hk => ?_
        rw [hp₁.contains (mem_range'_1.mp hk).1]
      have hpushed : ∀ {op' m}, Pushed s base op₁ op' m → Pushed s base op op' (m + 1) := fun {op' m} hp =>
        ⟨by rw [hp.descs, hp₁.descs, append_assoc, ← replicate_add, Nat.add_comm 1 m], fun k hle => by
          rw [hp.names k (by rw [hp₁.size]; omega), hp₁.names k (by omega)]⟩
      have hrun := ih op₁
      have hstep : ∀ r, addDescs add d op₁ = r → addDescs add (d + 1) op = r := fun r hr => by
        rw [addDescs]
        simp only [hop₁, if_true, hr]
      dsimp only
      rw [hfirst]
      cases htaken : op₁.firstTaken s base d with
      | none =>
        rw [htaken] at hrun
        obtain ⟨op', hr, hp⟩ := hrun
        exact ⟨op', hstep _ hr, hpushed hp⟩
      | some k =>
        rw [htaken] at hrun
        obtain ⟨j, op', hj, hlt, hcontains, hr, hp⟩ := hrun
        rw [hp₁.size] at hj
        refine ⟨j + 1, op', by omega, succ_lt_succ hlt, ?_, ?_, hpushed hp⟩
        · rw [← hp₁.contains (by omega)]
          exact hcontains
        · rw [hstep _ hr, succ_sub_succ]

variable {i : Nat} {k : AnchorKind} {h : Heap} {n : NodeId} {a : List GeTensorDesc}
  {clear : OpDesc → Bool × OpDesc}

/-- Appended under a name that is there, a descriptor replaces that of the name every time, or is refused. -/
theorem addDescs_taken (hf : op.inputNameIdx.find ("__input" ++ toString op.inputsDesc.length) = some i) (hd : d ≠ 0) :
    addDescs (·.addInputDesc dataDesc) d op =
      if i < op.inputsDesc.length then (true, { op with inputsDesc := op.inputsDesc.set i dataDesc }) else (false, op) := by
  induction d generalizing op with
  | zero => exact absurd rfl hd
  | succ d ih =>
    have htaken : op.inputNameIdx.contains ("__input" ++ toString op.inputsDesc.length) = true := by
      rw [← Bool.not_eq_false, ← find_eq_none, hf]
      nofun
    have hadd : op.addInputDesc dataDesc =
        if i < op.inputsDesc.length then (true, { op with inputsDesc := op.inputsDesc.set i dataDesc }) else (false, op) := by
      rw [OpDesc.addInputDesc, OpDesc.addInputDescNamed, if_pos htaken, OpDesc.updateInputDesc, hf]
      rfl
    rw [addDescs, hadd]
    by_cases hlt : i < op.inputsDesc.length
    · rw [if_pos hlt]
      simp only [if_true]
      by_cases hzero : d = 0
      · rw [hzero]
        rfl
      · rw [ih (by rw [length_set]; exact hf) hzero, length_set, if_pos hlt, set_set]
    · rw [if_neg hlt]
      rfl

/-- What the appended descriptors of the inputs come to: all of them, those up to a name that is there and leads to one of them, with
that one replaced, or those up to a name that leads to none. -/
theorem addInputs_run (d : Nat) (op : OpDesc) : match op.firstTaken .input "__input" d with
    | none => ∃ op', addDescs (·.addInputDesc dataDesc) d op = (true, op') ∧
        op'.inputsDesc = op.inputsDesc ++ List.replicate d dataDesc
    | some k => ∃ i op', op.inputNameIdx.find ("__input" ++ toString k) = some i ∧ op.inputsDesc.length ≤ k ∧
        k < op.inputsDesc.length + d ∧ addDescs (·.addInputDesc dataDesc) d op = (decide (i < k), op') ∧ op'.inputsDesc =
          if i < k then (op.inputsDesc ++ List.replicate (k - op.inputsDesc.length) dataDesc).set i dataDesc
          else op.inputsDesc ++ List.replicate (k - op.inputsDesc.length) dataDesc := by
  have hrun := addDescs_run pushes_addInputDesc d op
  cases hfirst : op.firstTaken .input "__input" d with
  | none =>
    rw [hfirst] at hrun
    obtain ⟨op', hr, hp⟩ := hrun
    exact ⟨op', hr, hp.descs⟩
  | some k =>
    rw [hfirst] at hrun
    obtain ⟨j, op', hj, hlt, htaken, hr, hp⟩ := hrun
    obtain ⟨i, hi⟩ : ∃ i, op.inputNameIdx.find ("__input" ++ toString k) = some i := by
      rw [← isSome_iff_exists, isSome_iff_ne_none, Ne, find_eq_none, Bool.not_eq_false]
      exact htaken
    have hlen : op'.inputsDesc.length = k := hp.size.trans hj
    have hj' : op.inputsDesc.length + j = k := hj
    have hdescs : op'.inputsDesc = op.inputsDesc ++ List.replicate (k - op.inputsDesc.length) dataDesc := by
      rw [← hj', Nat.add_sub_cancel_left]
      exact hp.descs
    have hf : op'.inputNameIdx.find ("__input" ++ toString op'.inputsDesc.length) = some i := by
      rw [hlen]
      exact (hp.names k (Nat.le_of_eq hj)).trans hi
    rw [addDescs_taken hf (by omega), hlen] at hr
    by_cases hik : i < k
    · rw [if_pos hik] at hr
      refine ⟨i, _, hi, by omega, by omega, hr.trans (by rw [decide_eq_true hik]), ?_⟩
      rw [if_pos hik, ← hdescs]
    · rw [if_neg hik] at hr
      refine ⟨i, _, hi, by omega, by omega, hr.trans (by rw [decide_eq_false hik]), ?_⟩
      rw [if_neg hik, hdescs]

/-- A list with one item written stands in front as before when the item was that, or is not one of the list. -/
theorem prefix_set_iff {α : Type} {l m : List α} {a : α} : l.IsPrefix ((l ++ m).set i a) ↔ l.getD i a = a := by
  rw [set_append]
  by_cases hlt : i < l.length
  · rw [if_pos hlt, getD_eq_getElem _ _ hlt]
    constructor
    · rintro ⟨m', hm⟩
      have hlen := congrArg List.length hm
      have heq := (List.append_inj hm (by rw [length_set])).1
      have hget := congrArg (·[i]?) heq
      rw [getElem?_set_self hlt, getElem?_eq_getElem hlt] at hget
      exact Option.some.inj hget
    · intro ha
      rw [← ha, set_getElem_self]
      exact prefix_append _ _
  · rw [if_neg hlt, getD_eq_default _ _ (Nat.le_of_not_lt hlt)]
    exact ⟨fun _ => rfl, fun _ => prefix_append _ _⟩

/-! ## Appending anchors -/

/-- The functions that append: descriptors first, then the anchors that are missing. -/
def appendBy (k : AnchorKind) (add : OpDesc → Bool × OpDesc) (h : Heap) (n : NodeId) (num : Nat) : Cmd Heap Bool := do
  if !(← Node.editOp n add) then return false
  modify (Node.appendAnchors n k (num - (h.anchorsOf n k).length))
  return true

theorem prefix_appendAnchors (hk : k.isData = true) (n : NodeId) (m : Nat) : ∀ h : Heap,
    (h.anchorsOf n k).IsPrefix ((Node.appendAnchors n k m h).anchorsOf n k) := by
  induction m with
  | zero => exact fun h => prefix_refl _
  | succ m ih =>
    intro h
    have hone : (h.anchorsOf n k).IsPrefix ((Node.appendAnchor n k h).anchorsOf n k) := by
      rw [AnchorAux.appendAnchor_anchorsOf hk, if_pos ⟨rfl, rfl⟩]
      exact prefix_append _ _
    exact hone.trans (ih (Node.appendAnchor n k h))

/-- When the descriptors are appended, so are the anchors that are missing. -/
theorem appendBy_run (hk : k.isData = true) (add : OpDesc → Bool × OpDesc) (h : Heap) (n : NodeId) (num : Nat) :
    ∃ h', appendBy k add h n num h = some ((add (h.desc n)).1, h') ∧ h'.desc n = (add (h.desc n)).2 ∧
      (h.anchorsOf n k).IsPrefix (h'.anchorsOf n k) ∧ (h'.anchorsOf n k).length =
        (h.anchorsOf n k).length + if (add (h.desc n)).1 then num - (h.anchorsOf n k).length else 0 := by
  rcases hr : add (h.desc n) with ⟨ok, op'⟩
  have hdesc : (h.setOp (h.node n).op op').desc n = op' := update_self ..
  have hanchors : (h.setOp (h.node n).op op').anchorsOf n k = h.anchorsOf n k := by cases k <;> rfl
  have hrun : Node.editOp n add h = some (ok, h.setOp (h.node n).op op') := by rw [CallAux.editOp_apply, hr]
  cases ok with
  | false =>
    refine ⟨_, ?_, hdesc, hanchors ▸ prefix_refl _, by rw [hanchors]; rfl⟩
    rw [appendBy, Cmd.bind_of_eq hrun]
    rfl
  | true =>
    obtain ⟨hop, -, -, -, hnode, -⟩ := NewNodesAux.appendAnchors_frame n k (num - (h.anchorsOf n k).length)
      (h.setOp (h.node n).op op')
    refine ⟨Node.appendAnchors n k (num - (h.anchorsOf n k).length) (h.setOp (h.node n).op op'), ?_, ?_,
      hanchors ▸ prefix_appendAnchors hk n _ _, ?_⟩
    · rw [appendBy, Cmd.bind_of_eq hrun]
      rfl
    · rw [Heap.desc, hop, hnode]
      exact hdesc
    · rw [NewNodesAux.appendAnchors_length hk, if_pos rfl, hanchors]
      rfl

/-- The anchors follow the descriptors when as many of these were appended as anchors are missing. -/
theorem appendsInStep_iff (hk : s.kind.isData = true) (add : OpDesc → Bool × OpDesc)
    (hsame : (h.anchorsOf n s.kind).length = s.size (h.desc n)) (num : Nat) :
    (∃ ok h', appendBy s.kind add h n num h = some (ok, h') ∧ h.AppendsInStep s h' n num ok) ↔
      s.size (add (h.desc n)).2 = s.size (h.desc n) + (if (add (h.desc n)).1 then num - s.size (h.desc n) else 0) ∧
        (s.descs (h.desc n)).IsPrefix (s.descs (add (h.desc n)).2) := by
  obtain ⟨h', hr, hdesc, hanchors, hlen⟩ := appendBy_run hk add h n num
  rw [hsame] at hlen
  constructor
  · rintro ⟨ok, t, ht, hin⟩
    obtain rfl := (Prod.mk.inj (Option.some.inj (hr.symm.trans ht))).2
    exact ⟨by rw [← hdesc, ← hin.counts, hlen], hdesc ▸ hin.descs⟩
  · rintro ⟨hsize, hdescs⟩
    refine ⟨_, h', hr, ⟨by rw [hdesc, hlen, hsize], hanchors, hdesc.symm ▸ hdescs, fun hok => ?_⟩⟩
    rw [hdesc, hsize, hok, if_pos rfl]
    omega

/-- As many inputs are appended as are missing exactly when the descriptor meets the condition. -/
theorem appendsInputs_iff (op : OpDesc) (num : Nat) :
    let r := addDescs (·.addInputDesc dataDesc) (num - op.getInputsSize) op
    (DescSide.input.size r.2 = DescSide.input.size op + (if r.1 then num - DescSide.input.size op else 0) ∧
      (DescSide.input.descs op).IsPrefix (DescSide.input.descs r.2)) ↔ op.AppendsInputs num := by
  have hvalid : op.getInputsSize ≤ op.inputsDesc.length := countP_le_length
  have hrun := addInputs_run (num - op.getInputsSize) op
  dsimp only
  rw [OpDesc.AppendsInputs]
  cases hfirst : op.firstTaken .input "__input" (num - op.getInputsSize) with
  | none =>
    rw [hfirst] at hrun
    obtain ⟨op', hr, hdescs⟩ := hrun
    have hsize : op'.inputsDesc.length = op.inputsDesc.length + (num - op.getInputsSize) := by
      rw [hdescs, length_append, length_replicate]
    have hprefix : (DescSide.input.descs op).IsPrefix (DescSide.input.descs op') := ⟨_, hdescs.symm⟩
    simp only [hr, if_true, hprefix, and_true, OpDesc.getAllInputsSize, DescSide.size, hsize]
    omega
  | some k =>
    rw [hfirst] at hrun
    obtain ⟨i, op', hi, hle, hlt, hr, hdescs⟩ := hrun
    have hlen : DescSide.input.size op' = k := by
      rw [← length_descs]
      refine (congrArg List.length hdescs).trans ?_
      split <;> simp only [length_set, length_append, length_replicate] <;> omega
    have hfound : (∀ i', op.inputNameIdx.find ("__input" ++ toString k) = some i' →
        if i' < k then k = max op.getAllInputsSize num ∧ op.inputsDesc.getD i' dataDesc = dataDesc else k = op.getAllInputsSize) ↔
        if i < k then k = max op.getAllInputsSize num ∧ op.inputsDesc.getD i dataDesc = dataDesc else k = op.getAllInputsSize := by
      rw [hi]
      simp only [Option.some.injEq, forall_eq']
    simp only [hr, hlen, hfound]
    rw [show DescSide.input.size op = op.inputsDesc.length from rfl, OpDesc.getAllInputsSize]
    by_cases hik : i < k
    · have hprefix : (DescSide.input.descs op).IsPrefix (DescSide.input.descs op') ↔ op.inputsDesc.getD i dataDesc = dataDesc := by
        rw [← prefix_set_iff (m := List.replicate (k - op.inputsDesc.length) dataDesc), DescSide.descs, DescSide.descs, hdescs,
          if_pos hik]
      rw [if_pos hik, hprefix, decide_eq_true hik, if_pos rfl, or_iff_right (by omega)]
      refine and_congr_left fun _ => ?_
      omega
    · have hprefix : (DescSide.input.descs op).IsPrefix (DescSide.input.descs op') := by
        rw [DescSide.descs, DescSide.descs, hdescs, if_neg hik]
        exact prefix_append _ _
      rw [if_neg hik, decide_eq_false hik, if_neg Bool.false_ne_true, or_iff_right (by omega), Nat.add_zero]
      exact and_iff_left hprefix

/-- As many outputs are appended as are missing exactly when the descriptor meets the condition. -/
theorem appendsOutputs_iff (op : OpDesc) (num : Nat) :
    let r := addDescs (·.addOutputDesc dataDesc) (num - op.getOutputsSize) op
    (DescSide.output.size r.2 = DescSide.output.size op + (if r.1 then num - DescSide.output.size op else 0) ∧
      (DescSide.output.descs op).IsPrefix (DescSide.output.descs r.2)) ↔ op.AppendsOutputs num := by
  have hrun := addDescs_run pushes_addOutputDesc (num - op.getOutputsSize) op
  dsimp only
  rw [OpDesc.AppendsOutputs]
  cases hfirst : op.firstTaken .output "__output" (num - op.getOutputsSize) with
  | none =>
    rw [hfirst] at hrun
    obtain ⟨op', hr, hp⟩ := hrun
    simp only [hr, if_true, hp.size, reduceCtorEq, false_implies, implies_true, iff_true]
    exact ⟨rfl, _, hp.descs.symm⟩
  | some k =>
    rw [hfirst] at hrun
    obtain ⟨j, op', hj, hlt, htaken, hr, hp⟩ := hrun
    have hsize : op.getOutputsSize + j = k := hj
    obtain ⟨m, hm⟩ : ∃ m, num - op.getOutputsSize - j = m + 1 := ⟨num - op.getOutputsSize - j - 1, by omega⟩
    -- the name is there, so the next descriptor is refused
    have hrefused : op'.addOutputDesc dataDesc = (false, op') := by
      refine if_pos ?_
      have hlen : op'.outputsDesc.length = k := hp.size.trans hj
      rw [hlen]
      exact (hp.contains (Nat.le_of_eq hj)).trans htaken
    rw [hm, addDescs, hrefused] at hr
    simp only [hr, Bool.false_eq_true, if_false, Nat.add_zero, hp.size, Option.some.injEq, forall_eq']
    rw [and_iff_left ⟨_, hp.descs.symm⟩]
    show op.getOutputsSize + j = op.getOutputsSize ↔ k = op.getOutputsSize
    rw [hsize]

/-! ## Dropping -/

/-- Erasing at a number leaves that many descriptors in front, and behind them those at which the valid ones are as many at most. That
is none when the ones in front are valid and so is the last. -/
theorem clearInputs_run (m : Nat) : ∀ (op : OpDesc) {t : List GeTensorDesc}, op.inputsDesc = a ++ t →
    t.length ≤ m → ∃ op' rest, clearDescs OpDesc.getInputsSize OpDescUtils.clearInputDesc a.length m op = (true, op') ∧
      op'.inputsDesc = a ++ rest ∧ rest.IsSuffix t ∧
        (rest = [] ↔ t = [] ∨ (∀ d ∈ a, d.isValid = true) ∧ ∀ d ∈ t.getLast?, d.isValid = true) := by
  have hsize : ∀ {op : OpDesc} {t : List GeTensorDesc}, op.inputsDesc = a ++ t →
      op.getInputsSize = a.countP GeTensorDesc.isValid + t.countP GeTensorDesc.isValid := fun {op t} hop => by
    rw [OpDesc.getInputsSize, hop, countP_append]
  have ha : a.countP GeTensorDesc.isValid ≤ a.length := countP_le_length
  induction m with
  | zero =>
    intro op t hop hm
    obtain rfl := eq_nil_of_length_eq_zero (Nat.le_zero.mp hm)
    exact ⟨op, [], rfl, hop, suffix_refl _, by simp⟩
  | succ m ih =>
    intro op t hop hm
    by_cases hlt : a.length < op.getInputsSize
    · cases t with
      | nil =>
        rw [hsize hop] at hlt
        simp only [countP_nil] at hlt
        omega
      | cons d t =>
        have hclear : OpDescUtils.clearInputDesc op a.length = (true, { op with inputsDesc := a ++ t }) := by
          rw [OpDescUtils.clearInputDesc, hop, if_pos (by simp), eraseIdx_append_of_length_le (Nat.le_refl _), Nat.sub_self,
            eraseIdx_cons_zero]
        obtain ⟨op', rest, hr, hrest, hsuffix, hnil⟩ := ih { op with inputsDesc := a ++ t } rfl (le_of_succ_le_succ hm)
        refine ⟨op', rest, ?_, hrest, hsuffix.trans (suffix_cons d t), hnil.trans ?_⟩
        · rw [clearDescs, if_pos hlt, hclear]
          exact hr
        · cases t with
          | nil =>
            -- the last is erased for more descriptors are valid than are to stay
            rw [hsize hop, countP_cons, countP_nil] at hlt
            have hd : d.isValid = true := by
              by_contra hd
              rw [if_neg hd] at hlt
              omega
            rw [if_pos hd] at hlt
            have hall := countP_eq_length.mp (Nat.le_antisymm ha (by omega))
            exact ⟨fun _ => .inr ⟨hall, by simp [hd]⟩, fun _ => .inl rfl⟩
          | cons d' t => simp [getLast?_cons_cons]
    · refine ⟨op, t, by rw [clearDescs, if_neg hlt], hop, suffix_refl _, fun hnil => .inl hnil, ?_⟩
      rintro (hnil | ⟨hall, hlast⟩)
      · exact hnil
      · by_contra hne
        have hmem : t.getLast hne ∈ t := getLast_mem hne
        have hvalid := hlast _ (getLast?_eq_some_getLast hne)
        have hpos : 0 < t.countP GeTensorDesc.isValid := countP_pos_iff.mpr ⟨_, hmem, hvalid⟩
        rw [hsize hop, countP_eq_length.mpr hall] at hlt
        omega

/-- Erasing outputs at a number leaves that many. -/
theorem clearOutputs_run (m : Nat) : ∀ (op : OpDesc) {t : List GeTensorDesc}, op.outputsDesc = a ++ t →
    t.length ≤ m → ∃ op', clearDescs OpDesc.getOutputsSize OpDescUtils.clearOutputDesc a.length m op = (true, op') ∧
      op'.outputsDesc = a := by
  induction m with
  | zero =>
    intro op t hop hm
    obtain rfl := eq_nil_of_length_eq_zero (Nat.le_zero.mp hm)
    exact ⟨op, rfl, by rw [hop, append_nil]⟩
  | succ m ih =>
    intro op t hop hm
    cases t with
    | nil =>
      rw [append_nil] at hop
      exact ⟨op, by rw [clearDescs, if_neg (by rw [OpDesc.getOutputsSize, hop]; exact Nat.lt_irrefl _)], hop⟩
    | cons d t =>
      have hclear : OpDescUtils.clearOutputDesc op a.length = (true, { op with outputsDesc := a ++ t }) := by
        rw [OpDescUtils.clearOutputDesc, hop, if_pos (by simp), eraseIdx_append_of_length_le (Nat.le_refl _), Nat.sub_self,
          eraseIdx_cons_zero]
      obtain ⟨op', hr, hdescs⟩ := ih { op with outputsDesc := a ++ t } rfl (le_of_succ_le_succ hm)
      refine ⟨op', ?_, hdescs⟩
      rw [clearDescs, if_pos (by rw [OpDesc.getOutputsSize, hop, length_append, length_cons]; omega), hclear]
      exact hr

/-- The functions that drop: descriptors first, then their names are stored anew, then the anchors are dropped. -/
def dropBy (k : AnchorKind) (clear rename : OpDesc → Bool × OpDesc) (n : NodeId) (num : Nat) : Cmd Heap Bool := do
  if !(← Node.editOp n clear) then return false
  let _ ← Node.editOp n rename
  modify fun h => h.setAnchorsOf n k ((h.anchorsOf n k).take num)
  return true

theorem dropBy_run (hk : k.isData = true) (hclear : clear (h.desc n) = (true, op')) (rename : OpDesc → Bool × OpDesc) (num : Nat) :
    ∃ h', dropBy k clear rename n num h = some (true, h') ∧ h'.desc n = (rename op').2 ∧
      h'.anchorsOf n k = (h.anchorsOf n k).take num := by
  have hrun : Node.editOp n clear h = some (true, h.setOp (h.node n).op op') := by rw [CallAux.editOp_apply, hclear]
  have hdesc : (h.setOp (h.node n).op op').desc n = op' := update_self ..
  refine ⟨_, by rw [dropBy, Cmd.bind_of_eq hrun]; rfl, ?_, ?_⟩
  · refine Eq.trans ?_ (congrArg (fun x => (rename x).2) hdesc)
    have hop : ∀ (t : Heap) l, (t.setAnchorsOf n k l).desc n = t.desc n := fun t l => by
      cases k <;> simp [Heap.setAnchorsOf, Heap.desc, Heap.setNode]
    rw [hop]
    exact update_self ..
  · rw [AnchorAux.anchorsOf_setAnchorsOf hk, if_pos ⟨rfl, rfl⟩]
    cases k <;> rfl

/-- The anchors follow the descriptors when these are dropped down to the number. -/
theorem dropsInStep_iff {rename : OpDesc → Bool × OpDesc} (hk : s.kind.isData = true)
    (hsame : (h.anchorsOf n s.kind).length = s.size (h.desc n)) (hclear : clear (h.desc n) = (true, op'))
    (hrename : s.descs (rename op').2 = s.descs op') (num : Nat) :
    (∃ ok h', dropBy s.kind clear rename n num h = some (ok, h') ∧ h.DropsInStep s h' n num ok) ↔
      s.size op' = min (s.size (h.desc n)) num ∧ (s.descs op').IsPrefix (s.descs (h.desc n)) := by
  obtain ⟨h', hr, hdesc, hanchors⟩ := dropBy_run hk hclear rename num
  have hdescs : s.descs (h'.desc n) = s.descs op' := by rw [hdesc, hrename]
  have hsize : s.size (h'.desc n) = s.size op' := by rw [← length_descs, hdescs, length_descs]
  constructor
  · rintro ⟨ok, t, ht, hin⟩
    obtain ⟨rfl, rfl⟩ := Prod.mk.inj (Option.some.inj (hr.symm.trans ht))
    exact ⟨hsize ▸ hin.number rfl, hdescs ▸ hin.descs⟩
  · rintro ⟨hmin, hprefix⟩
    refine ⟨true, h', hr, ?_, hanchors ▸ take_prefix _ _, hdescs.symm ▸ hprefix, fun _ => hsize.trans hmin⟩
    rw [hanchors, length_take, hsame, hsize, hmin, Nat.min_comm]

theorem descs_rename (num : Nat) : DescSide.input.descs ((op'.updateInputName op'.inputNameIdx).2.resizeIsInputConst num) =
    DescSide.input.descs op' := by
  rw [OpDesc.updateInputName]
  cases OpDesc.namesFor op'.inputsDesc.length op'.inputNameIdx <;> rfl

theorem descs_renameOutput : DescSide.output.descs (op'.updateOutputName op'.outputNameIdx).2 = DescSide.output.descs op' := by
  rw [OpDesc.updateOutputName]
  cases OpDesc.namesFor op'.outputsDesc.length op'.outputNameIdx <;> rfl

/-- Inputs are dropped down to the number exactly when the descriptor meets the condition. -/
theorem removeInputAnchor_iff (h : Heap) (n : NodeId) (num : Nat)
    (hin : (h.node n).inDataAnchors.length = (h.desc n).getAllInputsSize) :
    (∃ ok h', removeInputAnchor (some n) num h = some (ok, h') ∧ h.DropsInStep .input h' n num ok) ↔
      (h.desc n).DropsInputs num := by
  have hdrop : removeInputAnchor (some n) num h =
      dropBy .inData (clearDescs OpDesc.getInputsSize OpDescUtils.clearInputDesc num (h.desc n).inputsDesc.length)
        (fun op => ((op.updateInputName op.inputNameIdx).1,
          (op.updateInputName op.inputNameIdx).2.resizeIsInputConst num)) n num h :=
    rfl
  rw [hdrop, OpDesc.DropsInputs]
  by_cases hle : (h.desc n).getAllInputsSize ≤ num
  · have hclear : clearDescs OpDesc.getInputsSize OpDescUtils.clearInputDesc num (h.desc n).inputsDesc.length (h.desc n) =
        (true, h.desc n) := by
      have hvalid : ¬ num < (h.desc n).getInputsSize := Nat.not_lt_of_le (Nat.le_trans countP_le_length hle)
      cases (h.desc n).inputsDesc.length with
      | zero => rfl
      | succ m => rw [clearDescs, if_neg hvalid]
    refine (dropsInStep_iff (s := .input) rfl hin hclear (descs_rename num) num).trans ?_
    exact iff_of_true ⟨(Nat.min_eq_left hle).symm, prefix_refl _⟩ (.inl hle)
  · have hlt : num < (h.desc n).inputsDesc.length := Nat.lt_of_not_le hle
    have hlen : ((h.desc n).inputsDesc.take num).length = num := by rw [length_take, Nat.min_eq_left (Nat.le_of_lt hlt)]
    obtain ⟨op', rest, hclear, hrest, -, hnil⟩ := clearInputs_run (h.desc n).inputsDesc.length (h.desc n)
      (take_append_drop num (h.desc n).inputsDesc).symm
      (by rw [length_drop]; exact sub_le _ _)
    rw [hlen] at hclear
    refine (dropsInStep_iff (s := .input) rfl hin hclear (descs_rename num) num).trans ?_
    have hdrop : (h.desc n).inputsDesc.drop num ≠ [] := fun hempty => hle (drop_eq_nil_iff.mp hempty)
    rw [or_iff_right hdrop, getLast?_drop, if_neg (Nat.not_le_of_lt hlt)] at hnil
    rw [or_iff_right hle, ← hnil]
    have hsize : DescSide.input.size op' = num + rest.length := by
      rw [DescSide.size, hrest, length_append, hlen]
    rw [hsize, show DescSide.input.size (h.desc n) = (h.desc n).inputsDesc.length from rfl, Nat.min_eq_right (Nat.le_of_lt hlt)]
    constructor
    · rintro ⟨hnum, -⟩
      exact eq_nil_of_length_eq_zero (by omega)
    · rintro rfl
      refine ⟨rfl, ?_⟩
      rw [DescSide.descs, hrest, append_nil]
      exact take_prefix _ _

/-- Outputs are dropped down to the number. -/
theorem removeOutputAnchor_drops (h : Heap) (n : NodeId) (num : Nat)
    (hout : (h.node n).outDataAnchors.length = (h.desc n).getOutputsSize) :
    ∃ ok h', removeOutputAnchor (some n) num h = some (ok, h') ∧ h.DropsInStep .output h' n num ok := by
  have hdrop : removeOutputAnchor (some n) num h =
      dropBy .outData (clearDescs OpDesc.getOutputsSize OpDescUtils.clearOutputDesc num (h.desc n).outputsDesc.length)
        (fun op => op.updateOutputName op.outputNameIdx) n num h := rfl
  rw [hdrop]
  by_cases hle : (h.desc n).getOutputsSize ≤ num
  · have hclear : clearDescs OpDesc.getOutputsSize OpDescUtils.clearOutputDesc num (h.desc n).outputsDesc.length (h.desc n) =
        (true, h.desc n) := by
      cases (h.desc n).outputsDesc.length with
      | zero => rfl
      | succ m => rw [clearDescs, if_neg (Nat.not_lt_of_le hle)]
    exact (dropsInStep_iff (s := .output) rfl hout hclear descs_renameOutput num).mpr
      ⟨(Nat.min_eq_left hle).symm, prefix_refl _⟩
  · have hlt : num < (h.desc n).outputsDesc.length := Nat.lt_of_not_le hle
    have hlen : ((h.desc n).outputsDesc.take num).length = num := by rw [length_take, Nat.min_eq_left (Nat.le_of_lt hlt)]
    obtain ⟨op', hclear, hdescs⟩ := clearOutputs_run (h.desc n).outputsDesc.length (h.desc n)
      (take_append_drop num (h.desc n).outputsDesc).symm
      (by rw [length_drop]; exact sub_le _ _)
    rw [hlen] at hclear
    refine (dropsInStep_iff (s := .output) rfl hout hclear descs_renameOutput num).mpr ⟨?_, ?_⟩
    · rw [DescSide.size, hdescs, hlen]
      exact (Nat.min_eq_right (Nat.le_of_lt hlt)).symm
    · rw [DescSide.descs, hdescs]
      exact take_prefix _ _

end AnchorsInStepAux

open NodeUtils AnchorsInStepAux in
/-- Appending and dropping anchors keeps them in step with the descriptors exactly when the descriptor meets the condition for each
function; dropping outputs always does. -/
theorem anchorsInStep_iff (h : Heap) (n : NodeId) (num : Nat) (hin : (h.node n).inDataAnchors.length = (h.desc n).getAllInputsSize)
    (hout : (h.node n).outDataAnchors.length = (h.desc n).getOutputsSize) :
    ((∃ ok h', appendInputAnchor (some n) num h = some (ok, h') ∧ h.AppendsInStep .input h' n num ok) ↔
      (h.desc n).AppendsInputs num) ∧
    ((∃ ok h', removeInputAnchor (some n) num h = some (ok, h') ∧ h.DropsInStep .input h' n num ok) ↔ (h.desc n).DropsInputs num) ∧
    ((∃ ok h', appendOutputAnchor (some n) num h = some (ok, h') ∧ h.AppendsInStep .output h' n num ok) ↔
      (h.desc n).AppendsOutputs num) ∧
    ∃ ok h', removeOutputAnchor (some n) num h = some (ok, h') ∧ h.DropsInStep .output h' n num ok := by
  refine ⟨?_, removeInputAnchor_iff h n num hin, ?_, removeOutputAnchor_drops h n num hout⟩
  · exact (appendsInStep_iff (s := .input) rfl _ hin num).trans (appendsInputs_iff (h.desc n) num)
  · exact (appendsInStep_iff (s := .output) rfl _ hout num).trans (appendsOutputs_iff (h.desc n) num)

namespace AnchorsInStepWitness

open NodeUtils

/-- A node with one input, valid or not as that of an optional input. -/
def heap (isValid : Bool) : Heap :=
  (LinkCall.runAll [.newOp { opDef := { name := "n", type := "Add" }
                             inputsDesc := [{ formatReserved := !isValid, dataTypeUndefined := !isValid }]
                             outputsDesc := [{}] }, .newNode 0]).getD .empty

theorem anchorsInStep_valid :
    ∃ ok h', appendInputAnchor (some 0) 2 (heap true) = some (ok, h') ∧ (heap true).AppendsInStep .input h' 0 2 ok := by
  obtain ⟨hin, -⟩ := anchorsInStep_iff (heap true) 0 2 (by decide +kernel) (by decide +kernel)
  have hfirst : ((heap true).desc 0).firstTaken .input "__input" (2 - ((heap true).desc 0).getInputsSize) =
    none := by decide +kernel
  refine hin.mpr (.inr ?_)
  rw [hfirst]
  show ((heap true).desc 0).getInputsSize = ((heap true).desc 0).getAllInputsSize
  decide +kernel

/-- The descriptor of an optional input is not counted, so another is appended for its anchor. -/
theorem anchorsInStep_false :
    ¬ ∀ (h : Heap) (n : NodeId) (num : Nat), (h.node n).inDataAnchors.length = (h.desc n).getAllInputsSize →
      ∃ ok h', appendInputAnchor (some n) num h = some (ok, h') ∧ h.AppendsInStep .input h' n num ok := by
  intro hall
  obtain ⟨ok, h', hr, hin⟩ := hall (heap false) 0 1 (by decide +kernel)
  have hcounts : (appendInputAnchor (some 0) 1 (heap false)).all
      (fun r => (r.2.anchorsOf 0 .inData).length == 1 && (r.2.desc 0).getAllInputsSize == 2) = true := by decide +kernel
  rw [hr, all_some, Bool.and_eq_true, beq_iff_eq, beq_iff_eq] at hcounts
  have := hcounts.1.symm.trans (hin.counts.trans hcounts.2)
  exact absurd this (by decide)

end AnchorsInStepWitness

end Metadef
