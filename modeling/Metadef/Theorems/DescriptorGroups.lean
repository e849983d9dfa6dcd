import Metadef.Lib.ListMoves
import Metadef.Theorems.DescriptorNames

/-!
# Groups of descriptors

A group of descriptors is put into a list one by one, each under the name of the group with its number. At the front each comes before
those that are there; from an index on each comes behind them. A name that is taken is found when the ones before it are in.
-/

namespace Metadef

open List DescriptorAux

open Positions

namespace DescSide

def descs : DescSide → OpDesc → List GeTensorDesc
  | input, op => op.inputsDesc
  | output, op => op.outputsDesc

/-- Puts a descriptor at a position of one side under a name. -/
def put (s : DescSide) (op : OpDesc) (position : Nat) (name : String) : OpDesc :=
  match s with
  | input => { op with inputsDesc := op.inputsDesc.insertIdx position {}
                       inputNameIdx := OpDesc.insertName op.inputNameIdx position name }
  | output => { op with outputsDesc := op.outputsDesc.insertIdx position {}
                        outputNameIdx := OpDesc.insertName op.outputNameIdx position name }

@[simp] theorem descs_put (s : DescSide) (op : OpDesc) (position : Nat) (name : String) :
    s.descs (s.put op position name) = (s.descs op).insertIdx position {} := by
  cases s <;> rfl

@[simp] theorem names_put (s : DescSide) (op : OpDesc) (position : Nat) (name : String) :
    s.names (s.put op position name) = OpDesc.insertName (s.names op) position name := by
  cases s <;> rfl

theorem length_descs (s : DescSide) (op : OpDesc) : (s.descs op).length = s.size op := by
  cases s <;> rfl

/-- The loop of the functions that add a group: each descriptor is put where `place` says. -/
def addGroup (s : DescSide) (place : Nat → Nat) (index : Nat) (op : OpDesc) (name : String) (num : Nat) : Bool × OpDesc :=
  OpDesc.eachIndex (fun i op =>
    if (s.names op).contains (name ++ toString i) then (false, op)
    else if s.size op < index then (false, op)
    else (true, s.put op (place i) (name ++ toString i))) (List.range num) op

end DescSide

open DescSide

/-- A group was added as a whole or not at all: the descriptors stand at the index, and the old names lead to their descriptors. -/
structure OpDesc.AllOrNothing (s : DescSide) (op : OpDesc) (num index : Nat) (r : Bool × OpDesc) : Prop where
  nothing : r.1 = false → s.descs r.2 = s.descs op ∧ s.names r.2 = s.names op
  inserted : r.1 = true → s.descs r.2 = (s.descs op).take index ++ List.replicate num ({} : GeTensorDesc) ++ (s.descs op).drop index
  kept : r.1 = true → ∀ k v, (s.names op).find k = some v →
    ∃ v', (s.names r.2).find k = some v' ∧ (s.descs r.2)[v']? = (s.descs op)[v]?

/-- Two ways to put a group in front agree, and leave it in the order of its numbers. -/
structure OpDesc.PrependsAlike (s : DescSide) (op : OpDesc) (name : String) (num : Nat) (forward middle : Bool × OpDesc) :
    Prop where
  status : forward.1 = middle.1
  descs : s.descs forward.2 = s.descs middle.2
  names : s.names forward.2 = s.names middle.2
  news : forward.1 = true → ∀ i < num, (s.names forward.2).find (name ++ toString i) = some i
  olds : forward.1 = true → ∀ k v, (s.names op).find k = some v → (s.names forward.2).find k = some (v + num)

/-- A name the group is to have is taken only when the first is, or the index is out of range. -/
def OpDesc.FailsAtOnce (s : DescSide) (op : OpDesc) (name : String) (num index : Nat) : Prop :=
  (∃ i < num, (s.names op).contains (name ++ toString i) = true) →
    (s.names op).contains (name ++ toString 0) = true ∨ s.size op < index

namespace DescriptorGroupsAux

variable {s : DescSide} {op op' : OpDesc} {name : String} {place : Nat → Nat} {pos : Nat → Nat → Nat} {index num i : Nat}

/-! ## The functions -/

theorem addInputDescMiddle_eq : op.addInputDescMiddle name num index = DescSide.input.addGroup (index + ·) index op name num := rfl

theorem addOutputDescMiddle_eq : op.addOutputDescMiddle name num index = DescSide.output.addGroup
    (index + ·) index op name num := rfl

theorem addInputDescForward_eq : op.addInputDescForward name num = DescSide.input.addGroup (fun _ => 0) 0 op name num := by
  unfold OpDesc.addInputDescForward DescSide.addGroup
  simp only [Nat.not_lt_zero, if_false]
  rfl

theorem addOutputDescForward_eq : op.addOutputDescForward name num = DescSide.output.addGroup (fun _ => 0) 0 op name num := by
  unfold OpDesc.addOutputDescForward DescSide.addGroup
  simp only [Nat.not_lt_zero, if_false]
  rfl

/-! ## Steps -/

/-- Where the numbers of a group are when some are in: each is put at its place, and moves up when one is put before it. -/
structure Places (place : Nat → Nat) (pos : Nat → Nat → Nat) (index : Nat) : Prop where
  range : ∀ i, index ≤ place i ∧ place i ≤ index + i
  new : ∀ i, pos (i + 1) i = place i
  old : ∀ i, ∀ j < i, pos (i + 1) j = if place i ≤ pos i j then pos i j + 1 else pos i j

/-- Behind those that are there. -/
theorem places_middle (index : Nat) : Places (index + ·) (fun _ j => index + j) index :=
  ⟨fun i => ⟨Nat.le_add_right index i, Nat.le_refl _⟩, fun _ => rfl, fun i j hlt => (if_neg (by omega)).symm⟩

/-- Before those that are there. -/
theorem places_forward : Places (fun _ => 0) (fun i j => i - 1 - j) 0 :=
  ⟨fun i => ⟨Nat.le_refl 0, Nat.zero_le _⟩, fun i => by omega, fun i j hlt => by rw [if_pos (Nat.zero_le _)]; omega⟩

/-- The first numbers of a group are in. -/
structure Grouped (s : DescSide) (name : String) (pos : Nat → Nat → Nat) (index : Nat) (op op' : OpDesc) (i : Nat) : Prop where
  descs : s.descs op' = (s.descs op).take index ++ List.replicate i ({} : GeTensorDesc) ++ (s.descs op).drop index
  news : ∀ j < i, (s.names op').find (name ++ toString j) = some (pos i j)
  olds : ∀ k, (∀ j < i, k ≠ name ++ toString j) →
    (s.names op').find k = ((s.names op).find k).map fun v => if index ≤ v then v + i else v

theorem grouped_zero : Grouped s name pos index op op 0 := by
  refine ⟨?_, fun j hlt => absurd hlt (Nat.not_lt_zero j), fun k _ => ?_⟩
  · rw [replicate_zero, append_nil, take_append_drop]
  · simp only [Nat.add_zero, ite_self]
    exact Option.map_id_fun'.symm ▸ rfl

/-- The name of a number that is to come is taken when it was at the start. -/
theorem Grouped.contains (hg : Grouped s name pos index op op' i) {j : Nat} (hle : i ≤ j) :
    (s.names op').contains (name ++ toString j) = (s.names op).contains (name ++ toString j) := by
  have hfind := hg.olds (name ++ toString j) fun k hlt heq => by
    have := numbered_inj name heq
    omega
  rw [Bool.eq_iff_iff, ← not_iff_not, Bool.not_eq_true, Bool.not_eq_true, ← OrderedMap.find_eq_none, ← OrderedMap.find_eq_none,
    hfind, Option.map_eq_none_iff]

/-- One more number is put at its place. -/
theorem Grouped.put (hg : Grouped s name pos index op op' i) (hp : Places place pos index) (hindex : index ≤ s.size op)
    (hnew : (s.names op).contains (name ++ toString i) = false) :
    Grouped s name pos index op (s.put op' (place i) (name ++ toString i)) (i + 1) := by
  have hnew' : (s.names op').contains (name ++ toString i) = false := (hg.contains (Nat.le_refl i)).trans hnew
  obtain ⟨hlow, hhigh⟩ := hp.range i
  have hlen : ((s.descs op).take index).length = index := by
    rw [length_take, length_descs, Nat.min_eq_left hindex]
  refine ⟨?_, fun j hlt => ?_, fun k hk => ?_⟩
  · rw [descs_put, hg.descs]
    exact ListMoves.insertIdx_row (hlen.symm ▸ hlow) (hlen.symm ▸ hhigh)
  · rw [names_put, OpDesc.insertName, find_insert_shiftFrom hnew']
    by_cases hji : j = i
    · rw [if_pos (hji ▸ rfl), hji, hp.new]
    · rw [if_neg fun heq => hji (numbered_inj name heq), hg.news j (by omega), hp.old i j (by omega), Option.map_some]
  · rw [names_put, OpDesc.insertName, find_insert_shiftFrom hnew', if_neg (hk i (Nat.lt_succ_self i)),
      hg.olds k fun j hlt => hk j (Nat.lt_succ_of_lt hlt), Option.map_map]
    refine congrArg (Option.map · _) (funext fun v => ?_)
    rw [Function.comp_apply]
    split <;> split <;> omega

/-! ## Runs -/

/-- The loop stops at the first name that is taken. -/
theorem eachIndex_grouped (hp : Places place pos index) (hindex : index ≤ s.size op) :
    ∀ (m : Nat) {start : Nat} {op' : OpDesc}, Grouped s name pos index op op' start →
      (∀ j < start, (s.names op).contains (name ++ toString j) = false) →
      ∃ i ≤ start + m, ∃ r, OpDesc.eachIndex (fun i op =>
          if (s.names op).contains (name ++ toString i) then (false, op)
          else if s.size op < index then (false, op)
          else (true, s.put op (place i) (name ++ toString i))) (List.range' start m) op' = (decide (i = start + m), r) ∧
        Grouped s name pos index op r i ∧ (∀ j < i, (s.names op).contains (name ++ toString j) = false) ∧
        (i < start + m → (s.names op).contains (name ++ toString i) = true) := by
  intro m
  induction m with
  | zero =>
    intro start op' hg hnew
    exact ⟨start, Nat.le_refl _, op', by simp [OpDesc.eachIndex], hg, hnew, fun hlt => absurd hlt (Nat.lt_irrefl _)⟩
  | succ m ih =>
    intro start op' hg hnew
    rw [range'_succ, OpDesc.eachIndex]
    cases hk : (s.names op).contains (name ++ toString start) with
    | true =>
      rw [if_pos ((hg.contains (Nat.le_refl _)).trans hk)]
      exact ⟨start, by omega, op', by simp, hg, hnew, fun _ => hk⟩
    | false =>
      have hsize : index ≤ s.size op' := by
        rw [← length_descs, hg.descs, length_append, length_append, length_take, length_descs]
        omega
      rw [if_neg (by rw [hg.contains (Nat.le_refl _), hk]; decide), if_neg (Nat.not_lt_of_le hsize)]
      obtain ⟨i, hle, r, hr, hrest⟩ := ih (hg.put hp hindex hk) fun j hlt => by
        rcases Nat.lt_succ_iff_lt_or_eq.mp hlt with hlt | rfl
        · exact hnew j hlt
        · exact hk
      have hsum : start + 1 + m = start + (m + 1) := by omega
      rw [hsum] at hle hr hrest
      exact ⟨i, hle, r, hr, hrest⟩

/-- A group that is added from an index in range is in up to the first name that is taken. -/
theorem addGroup_grouped (op : OpDesc) (hp : Places place pos index) (hindex : index ≤ s.size op) (name : String) (num : Nat) :
    ∃ i ≤ num, ∃ r, s.addGroup place index op name num = (decide (i = num), r) ∧ Grouped s name pos index op r i ∧
      (∀ j < i, (s.names op).contains (name ++ toString j) = false) ∧
      (i < num → (s.names op).contains (name ++ toString i) = true) := by
  have hrun := eachIndex_grouped hp hindex num (@grouped_zero s op name pos index) fun j hlt => absurd hlt (Nat.not_lt_zero j)
  rw [Nat.zero_add] at hrun
  rwa [DescSide.addGroup, range_eq_range']

/-- When the first name is taken, or the index is out of range, nothing is added. -/
theorem addGroup_refused (hrefused : (s.names op).contains (name ++ toString 0) = true ∨ s.size op < index) (num : Nat) :
    s.addGroup place index op name num = (decide (num = 0), op) := by
  cases num with
  | zero => rfl
  | succ num =>
    rw [DescSide.addGroup, range_eq_range', range'_succ, OpDesc.eachIndex]
    cases hk : (s.names op).contains (name ++ toString 0) with
    | true =>
      rw [if_pos rfl]
      rfl
    | false =>
      rw [if_neg Bool.false_ne_true, if_pos (hrefused.resolve_left (by rw [hk]; decide))]
      rfl

/-- When only the first name is free, or asked for, one descriptor is added. -/
theorem addGroup_one (hp : Places place pos index) (hindex : index ≤ s.size op) (hnum : num ≠ 0)
    (hfree : (s.names op).contains (name ++ toString 0) = false)
    (hsecond : num ≤ 1 ∨ (s.names op).contains (name ++ toString 1) = true) :
    s.addGroup place index op name num = (decide (num = 1), s.put op (place 0) (name ++ toString 0)) := by
  have hg := grouped_zero.put hp hindex hfree
  obtain ⟨m, rfl⟩ := Nat.exists_eq_succ_of_ne_zero hnum
  rw [DescSide.addGroup, range_eq_range', range'_succ, OpDesc.eachIndex, if_neg (by rw [hfree]; decide),
    if_neg (Nat.not_lt_of_le hindex)]
  cases m with
  | zero => rfl
  | succ m =>
    have hk := (hg.contains (Nat.le_refl 1)).trans (hsecond.resolve_left (by omega))
    dsimp only
    rw [range'_succ, OpDesc.eachIndex, if_pos hk]
    rfl

/-- An item keeps its place among the others when a row is put between them. -/
theorem getElem?_spread {α : Type} {l : List α} {a : α} (hindex : index ≤ l.length) (v : Nat) :
    (l.take index ++ List.replicate num a ++ l.drop index)[if index ≤ v then v + num else v]? = l[v]? := by
  have hlen : (l.take index).length = index := by rw [length_take, Nat.min_eq_left hindex]
  by_cases hv : index ≤ v
  · rw [if_pos hv, getElem?_append_right (by rw [length_append, length_replicate, hlen]; omega), length_append,
      length_replicate, hlen, getElem?_drop]
    congr 1
    omega
  · rw [if_neg hv, append_assoc, getElem?_append_left (by omega), getElem?_take_of_lt (by omega)]

/-- A group is added as a whole or not at all exactly when what stops it stops it at once. -/
theorem allOrNothing_addGroup (hp : Places place pos index) (name : String) (num : Nat) :
    op.AllOrNothing s num index (s.addGroup place index op name num) ↔ op.FailsAtOnce s name num index := by
  constructor
  · rintro hall ⟨j, hj, hk⟩
    refine or_iff_not_imp_right.mpr fun hindex => ?_
    obtain ⟨i, hi, r, hr, hg, hnew, htaken⟩ := addGroup_grouped op hp (Nat.le_of_not_lt hindex) name num
    have hlt : i < num := by
      refine Nat.lt_of_le_of_ne hi fun heq => ?_
      rw [hnew j (heq ▸ hj)] at hk
      cases hk
    -- what was put in before the name that is taken is still there
    have hlen := congrArg List.length (hall.nothing (by rw [hr]; exact decide_eq_false (Nat.ne_of_lt hlt))).1
    rw [hr, hg.descs, length_append, length_append, length_take, length_drop, length_replicate] at hlen
    obtain rfl : i = 0 := by omega
    exact htaken hlt
  · intro hcond
    by_cases hrefused : (s.names op).contains (name ++ toString 0) = true ∨ s.size op < index
    · rw [addGroup_refused hrefused]
      refine ⟨fun _ => ⟨rfl, rfl⟩, fun hok => ?_, fun _ k v hf => ⟨v, hf, rfl⟩⟩
      obtain rfl := of_decide_eq_true hok
      rw [replicate_zero, append_nil, take_append_drop]
    · have hindex : index ≤ s.size op := Nat.le_of_not_lt fun hlt => hrefused (.inr hlt)
      obtain ⟨i, hi, r, hr, hg, hnew, htaken⟩ := addGroup_grouped op hp hindex name num
      obtain rfl : i = num := by
        by_contra hne
        have hlt := Nat.lt_of_le_of_ne hi hne
        exact hrefused (hcond ⟨i, hlt, htaken hlt⟩)
      rw [hr]
      refine ⟨fun hok => absurd hok (by simp), fun _ => hg.descs, fun _ k v hf => ?_⟩
      have hold := hg.olds k fun j hlt heq => by
        have := OrderedMap.find_eq_none.mpr (hnew j hlt)
        rw [← heq, hf] at this
        cases this
      rw [hf] at hold
      exact ⟨_, hold, hg.descs ▸ getElem?_spread ((length_descs s op).symm ▸ hindex) v⟩

/-- Before and behind those that are there the same group is left exactly when no second one is put in. -/
theorem prependsAlike_addGroup (name : String) (num : Nat) :
    op.PrependsAlike s name num (s.addGroup (fun _ => 0) 0 op name num) (s.addGroup (0 + ·) 0 op name num) ↔
      num ≤ 1 ∨ (s.names op).contains (name ++ toString 0) = true ∨ (s.names op).contains (name ++ toString 1) = true := by
  obtain ⟨i, hi, r, hr, hg, hnew, htaken⟩ := addGroup_grouped op places_forward (Nat.zero_le (s.size op)) name num
  obtain ⟨i', hi', r', hr', hg', hnew', htaken'⟩ := addGroup_grouped op (places_middle 0) (Nat.zero_le (s.size op)) name num
  constructor
  · intro halike
    by_contra hnot
    obtain ⟨hnum, hfree, hfree'⟩ : 1 < num ∧ ¬ (s.names op).contains (name ++ toString 0) = true ∧
      ¬ (s.names op).contains (name ++ toString 1) = true := by simpa using hnot
    -- neither loop stops before two are in
    have htwo : ∀ k, k ≤ num → (k < num → (s.names op).contains (name ++ toString k) = true) → 2 ≤ k := by
      intro k hk htaken
      match k with
      | 0 => exact absurd (htaken (by omega)) hfree
      | 1 => exact absurd (htaken (by omega)) hfree'
      | k + 2 => omega
    have hsecond := htwo i hi htaken
    have hfind := congrArg (OrderedMap.find · (name ++ toString 0)) halike.names
    rw [hr, hr', hg.news 0 (by omega), hg'.news 0 (by have := htwo i' hi' htaken'; omega), Option.some.injEq] at hfind
    omega
  · intro hcond
    have hsame : s.addGroup (fun _ => 0) 0 op name num = s.addGroup (0 + ·) 0 op name num := by
      by_cases hrefused : num = 0 ∨ (s.names op).contains (name ++ toString 0) = true
      · rcases hrefused with rfl | htaken
        · rfl
        · rw [addGroup_refused (.inl htaken), addGroup_refused (.inl htaken)]
      · obtain ⟨hnum, hfree⟩ := not_or.mp hrefused
        have hsecond := hcond.imp_right (·.resolve_left hfree)
        rw [addGroup_one places_forward (Nat.zero_le _) hnum (Bool.eq_false_iff.mpr hfree) hsecond,
          addGroup_one (places_middle 0) (Nat.zero_le _) hnum (Bool.eq_false_iff.mpr hfree) hsecond]
    rw [hsame, hr']
    refine ⟨rfl, rfl, rfl, fun hok j hlt => ?_, fun hok k v hf => ?_⟩
    · obtain rfl := of_decide_eq_true hok
      rw [hg'.news j hlt, Nat.zero_add]
    · obtain rfl := of_decide_eq_true hok
      rw [hg'.olds k fun j hlt heq => ?_, hf]
      · rfl
      · have hnone := OrderedMap.find_eq_none.mpr (hnew' j hlt)
        rw [← heq, hf] at hnone
        cases hnone

end DescriptorGroupsAux

open DescriptorGroupsAux in
/-- A group put in front by either function is the same one, in the order of its numbers, exactly when at most one descriptor of it is
put in. -/
theorem addDescForward_iff (op : OpDesc) (name : String) (num : Nat) :
    (op.PrependsAlike .input name num (op.addInputDescForward name num) (op.addInputDescMiddle name num 0) ↔
      num ≤ 1 ∨ op.inputNameIdx.contains (name ++ "0") = true ∨ op.inputNameIdx.contains (name ++ "1") = true) ∧
    (op.PrependsAlike .output name num (op.addOutputDescForward name num) (op.addOutputDescMiddle name num 0) ↔
      num ≤ 1 ∨ op.outputNameIdx.contains (name ++ "0") = true ∨ op.outputNameIdx.contains (name ++ "1") = true) := by
  rw [addInputDescForward_eq, addInputDescMiddle_eq, addOutputDescForward_eq, addOutputDescMiddle_eq]
  exact ⟨prependsAlike_addGroup name num, prependsAlike_addGroup name num⟩

open DescriptorGroupsAux in
/-- A group is added as a whole or not at all exactly when a name that is taken is found at once. -/
theorem addDescs_iff (op : OpDesc) (name : String) (num index : Nat) :
    (op.AllOrNothing .input num index (op.addInputDescMiddle name num index) ↔ op.FailsAtOnce .input name num index) ∧
    (op.AllOrNothing .output num index (op.addOutputDescMiddle name num index) ↔ op.FailsAtOnce .output name num index) ∧
    (op.AllOrNothing .input num 0 (op.addInputDescForward name num) ↔ op.FailsAtOnce .input name num 0) ∧
    (op.AllOrNothing .output num 0 (op.addOutputDescForward name num) ↔ op.FailsAtOnce .output name num 0) := by
  rw [addInputDescForward_eq, addInputDescMiddle_eq, addOutputDescForward_eq, addOutputDescMiddle_eq]
  exact ⟨allOrNothing_addGroup (places_middle index) name num, allOrNothing_addGroup (places_middle index) name num,
    allOrNothing_addGroup places_forward name num, allOrNothing_addGroup places_forward name num⟩

namespace DescriptorGroupsWitness

/-- An operator without descriptors. -/
def concat : OpDesc := .make "concat" "ConcatD"

/-- Put in front one by one, the second of two comes first. -/
theorem addDescForward_false :
    ¬ ∀ (op : OpDesc) (name : String) (num : Nat), Indexes op.inputNameIdx op.inputsDesc.length →
      op.PrependsAlike .input name num (op.addInputDescForward name num) (op.addInputDescMiddle name num 0) := by
  intro hall
  have hnames := (hall concat "x" 2 (by decide +kernel)).names
  exact absurd hnames (by decide +kernel)

/-- An operator whose only input has the second name of a group. -/
def taken : OpDesc := ((OpDesc.make "concat" "ConcatD").addInputDescNamed "x1" {}).2

/-- The first of two descriptors stays when the name of the second is taken. -/
theorem addDescs_false :
    ¬ ∀ (op : OpDesc) (name : String) (num index : Nat), op.AllOrNothing .input num index
      (op.addInputDescMiddle name num index) := by
  intro hall
  have hdescs := ((hall taken "x" 2 0).nothing (by decide +kernel)).1
  exact absurd (congrArg List.length hdescs) (by decide +kernel)

end DescriptorGroupsWitness

end Metadef
