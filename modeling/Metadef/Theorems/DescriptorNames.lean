import Mathlib
import Metadef.OpDesc

/-!
# Descriptor names index the descriptors

From a descriptor whose names index its tensor descriptors, a run of calls keeps it so, and grows the lists by what it appends,
exactly when no call makes up a name that is there, stores names that leave an index out, or clears a descriptor.
-/

namespace Metadef

open List

open Positions

/-- The input names lead to the input descriptors, each to one and all of them, and so do the output names. -/
structure OpDesc.NamesIndex (op : OpDesc) : Prop where
  input : Indexes op.inputNameIdx op.inputsDesc.length
  output : Indexes op.outputNameIdx op.outputsDesc.length

namespace DescCall

/-- The number of input descriptors a call that succeeds adds, none when the call is to take some away. -/
def inputsAdded (op : OpDesc) : DescCall → Option Nat
  | addInputDesc _ => some 1
  | addInputDescAt index _ => some (if index < op.inputsDesc.length then 0 else 1)
  | addInputDescNamed name _ | addOptionalInputDesc name _ => some (if op.inputNameIdx.contains name then 0 else 1)
  | addInputDescMiddle _ num _ | addDynamicInputDescByIndex _ num _ | addInputDescForward _ num => some num
  | addDynamicInputDesc name num isPushBack =>
    some (if isPushBack then (List.range num).countP fun i => !op.inputNameIdx.contains (name ++ toString i) else num)
  | clearInputDesc _ | clearInputDescs _ => none
  | _ => some 0

/-- The number of output descriptors a call that succeeds adds, none when the call is to take some away. -/
def outputsAdded : DescCall → Option Nat
  | addOutputDesc _ | addOutputDescNamed _ _ => some 1
  | addOutputDescMiddle _ num _ | addOutputDescForward _ num | addDynamicOutputDesc _ num _ => some num
  | clearOutputDesc _ | clearOutputDescs _ => none
  | _ => some 0

/-- What a call should leave: names that index the descriptors, and, when it succeeds, lists grown by what it adds. -/
structure Leaves (c : DescCall) (op : OpDesc) : Prop where
  indexed : (c.run op).2.NamesIndex
  inputs : (c.run op).1 = true → ∀ k ∈ c.inputsAdded op, (c.run op).2.inputsDesc.length = op.inputsDesc.length + k
  outputs : (c.run op).1 = true → ∀ k ∈ c.outputsAdded, (c.run op).2.outputsDesc.length = op.outputsDesc.length + k

/-- Names that are stored for `size` descriptors, which are those of as many indices below, lead to every index below. -/
def NamesFit (size : Nat) (names : OrderedMap String Nat) : Prop :=
  names.length = size ∨ size < names.length ∧ (names.filter fun e => e.2 < size).length = size →
    ∀ i < size, i ∈ names.map Prod.snd

instance (size : Nat) (names : OrderedMap String Nat) : Decidable (NamesFit size names) := by
  unfold NamesFit
  infer_instance

/-- A call that makes up no input name that is there, stores no names that leave an index out, and clears no descriptor. -/
def Fits (op : OpDesc) : DescCall → Prop
  | addInputDesc _ => op.inputNameIdx.contains ("__input" ++ toString op.inputsDesc.length) = false
  | addInputDescAt index _ => op.inputsDesc.length ≤ index →
    op.inputNameIdx.contains ("__input" ++ toString op.inputsDesc.length) = false
  | updateInputName names => NamesFit op.inputsDesc.length names.1
  | clearInputDesc index => op.inputsDesc.length ≤ index
  | clearInputDescs indexList => ∀ index ∈ indexList, op.inputsDesc.length ≤ index
  | updateOutputName names => NamesFit op.outputsDesc.length names.1
  | clearOutputDesc index => op.outputsDesc.length ≤ index
  | clearOutputDescs indexList => ∀ index ∈ indexList, op.outputsDesc.length ≤ index
  | _ => True

instance (op : OpDesc) (c : DescCall) : Decidable (c.Fits op) := by
  cases c <;> simp only [Fits] <;> infer_instance

end DescCall

/-- The inputs and the outputs of a descriptor. -/
inductive DescSide where
  | input | output

namespace DescSide

def names : DescSide → OpDesc → OrderedMap String Nat
  | input, op => op.inputNameIdx
  | output, op => op.outputNameIdx

def size : DescSide → OpDesc → Nat
  | input, op => op.inputsDesc.length
  | output, op => op.outputsDesc.length

def other : DescSide → DescSide
  | input => output
  | output => input

end DescSide

namespace DescriptorAux

variable {s : DescSide} {op op' op'' : OpDesc}

/-! ## One side grows -/

/-- One side is indexed by its names and has grown; the other is as it was. -/
structure Grows (s : DescSide) (op op' : OpDesc) (k : Nat) : Prop where
  indexed : Indexes (s.names op') (s.size op')
  size : s.size op' = s.size op + k
  otherNames : s.other.names op' = s.other.names op
  otherSize : s.other.size op' = s.other.size op

/-- A new name was put at a position of one side. -/
structure Puts (s : DescSide) (op op' : OpDesc) (position : Nat) (name : String) : Prop where
  new : (s.names op).contains name = false
  names : s.names op' = OpDesc.insertName (s.names op) position name
  size : position ≤ s.size op → s.size op' = s.size op + 1
  otherNames : s.other.names op' = s.other.names op
  otherSize : s.other.size op' = s.other.size op

theorem Grows.refl (hi : Indexes (s.names op) (s.size op)) : Grows s op op 0 := ⟨hi, rfl, rfl, rfl⟩

variable {j k : Nat} {f : Nat → OpDesc → Bool × OpDesc} {α : Type} {l : List GeTensorDesc}

theorem Grows.trans (hg : Grows s op op' j) (hg' : Grows s op' op'' k) : Grows s op op'' (j + k) :=
  ⟨hg'.indexed, by rw [hg'.size, hg.size, Nat.add_assoc], hg'.otherNames.trans hg.otherNames,
    hg'.otherSize.trans hg.otherSize⟩

theorem Puts.grows {p : Nat} {name : String} (hput : Puts s op op' p name) (hi : Indexes (s.names op) (s.size op))
    (hp : p ≤ s.size op) : Grows s op op' 1 := by
  refine ⟨?_, hput.size hp, hput.otherNames, hput.otherSize⟩
  rw [hput.names, hput.size hp]
  exact hi.insert hp hput.new

/-! ## Loops -/

/-- A loop that counts the steps that succeed. -/
theorem eachIndex_range {P : Nat → OpDesc → Prop}
    (hstep : ∀ i op, P i op → P (if (f i op).1 then i + 1 else i) (f i op).2) (num : Nat) (h : P 0 op) :
    ∃ j, P j (OpDesc.eachIndex f (List.range num) op).2 ∧ ((OpDesc.eachIndex f (List.range num) op).1 = true → j = num) := by
  have hfrom : ∀ num start op, P start op → ∃ j, P j (OpDesc.eachIndex f (List.range' start num) op).2 ∧
      ((OpDesc.eachIndex f (List.range' start num) op).1 = true → j = start + num) := by
    intro num
    induction num with
    | zero => exact fun start op h => ⟨start, h, fun _ => rfl⟩
    | succ num ih =>
      intro start op h
      have hs := hstep start op h
      rw [range'_succ, OpDesc.eachIndex]
      rcases hf : f start op with ⟨ok, op'⟩
      rw [hf] at hs
      cases ok with
      | false => exact ⟨start, hs, fun hok => by cases hok⟩
      | true =>
        obtain ⟨j, hj, hok⟩ := ih (start + 1) op' hs
        exact ⟨j, hj, fun ht => by rw [hok ht]; omega⟩
  simpa [range_eq_range'] using hfrom num 0 op h

/-- A loop whose steps put descriptors in a row from an index on, once it was checked. -/
theorem middle_grows (name : String) (index : Nat) (hf : ∀ i op, f i op = (false, op) ∨
      (f i op).1 = true ∧ index ≤ s.size op ∧ Puts s op (f i op).2 (index + i) (name ++ toString i))
    (num : Nat) (hi : Indexes (s.names op) (s.size op)) :
    ∃ j, Grows s op (OpDesc.eachIndex f (List.range num) op).2 j ∧
      ((OpDesc.eachIndex f (List.range num) op).1 = true → j = num) := by
  -- after the first step the index is known to be one of the list the loop started with
  have hrun := eachIndex_range (f := f) (P := fun i op' => Grows s op op' i ∧ (0 < i → index ≤ s.size op)) ?_ num
    ⟨.refl hi, fun hlt => absurd hlt (Nat.lt_irrefl 0)⟩
  · obtain ⟨j, ⟨hg, -⟩, hok⟩ := hrun
    exact ⟨j, hg, hok⟩
  · rintro i op' ⟨hg, hle⟩
    rcases hf i op' with hfail | ⟨hok, hindex, hput⟩
    · rw [hfail]
      exact ⟨hg, hle⟩
    · rw [if_pos hok]
      have hsize := hg.size
      have hstart : index ≤ s.size op := by
        rcases Nat.eq_zero_or_pos i with rfl | hpos
        · omega
        · exact hle hpos
      exact ⟨hg.trans (hput.grows hg.indexed (by omega)), fun _ => hstart⟩

/-- A loop whose steps put descriptors at the front. -/
theorem forward_grows (name : String)
    (hf : ∀ i op, f i op = (false, op) ∨ (f i op).1 = true ∧ Puts s op (f i op).2 0 (name ++ toString i))
    (num : Nat) (hi : Indexes (s.names op) (s.size op)) :
    ∃ j, Grows s op (OpDesc.eachIndex f (List.range num) op).2 j ∧
      ((OpDesc.eachIndex f (List.range num) op).1 = true → j = num) := by
  refine eachIndex_range (f := f) (P := fun i op' => Grows s op op' i) ?_ num (.refl hi)
  intro i op' hg
  rcases hf i op' with hfail | ⟨hok, hput⟩
  · rw [hfail]
    exact hg
  · rw [if_pos hok]
    exact hg.trans (hput.grows hg.indexed (Nat.zero_le _))

/-! ## Functions -/

theorem addInputDescMiddle_grows (name : String) (num index : Nat) (hi : Indexes op.inputNameIdx op.inputsDesc.length) :
    ∃ j, Grows .input op (op.addInputDescMiddle name num index).2 j ∧
      ((op.addInputDescMiddle name num index).1 = true → j = num) := by
  refine middle_grows (s := .input) name index (fun i op => ?_) num hi
  dsimp only
  generalize name ++ toString i = inputName
  cases hk : op.inputNameIdx.contains inputName with
  | true => exact .inl rfl
  | false =>
    rw [if_neg Bool.false_ne_true]
    by_cases hlt : op.inputsDesc.length < index
    · exact .inl (if_pos hlt)
    · rw [if_neg hlt]
      exact .inr ⟨rfl, Nat.le_of_not_lt hlt, hk, rfl, fun hle => length_insertIdx_of_le_length hle _, rfl, rfl⟩

theorem addOutputDescMiddle_grows (name : String) (num index : Nat) (hi : Indexes op.outputNameIdx op.outputsDesc.length) :
    ∃ j, Grows .output op (op.addOutputDescMiddle name num index).2 j ∧
      ((op.addOutputDescMiddle name num index).1 = true → j = num) := by
  refine middle_grows (s := .output) name index (fun i op => ?_) num hi
  dsimp only
  generalize name ++ toString i = outputName
  cases hk : op.outputNameIdx.contains outputName with
  | true => exact .inl rfl
  | false =>
    rw [if_neg Bool.false_ne_true]
    by_cases hlt : op.outputsDesc.length < index
    · exact .inl (if_pos hlt)
    · rw [if_neg hlt]
      exact .inr ⟨rfl, Nat.le_of_not_lt hlt, hk, rfl, fun hle => length_insertIdx_of_le_length hle _, rfl, rfl⟩

theorem addInputDescForward_grows (name : String) (num : Nat) (hi : Indexes op.inputNameIdx op.inputsDesc.length) :
    ∃ j, Grows .input op (op.addInputDescForward name num).2 j ∧ ((op.addInputDescForward name num).1 = true → j = num) := by
  refine forward_grows (s := .input) name (fun i op => ?_) num hi
  dsimp only
  generalize name ++ toString i = inputName
  cases hk : op.inputNameIdx.contains inputName with
  | true => exact .inl rfl
  | false => exact .inr ⟨rfl, hk, rfl, fun _ => rfl, rfl, rfl⟩

theorem addOutputDescForward_grows (name : String) (num : Nat) (hi : Indexes op.outputNameIdx op.outputsDesc.length) :
    ∃ j, Grows .output op (op.addOutputDescForward name num).2 j ∧
      ((op.addOutputDescForward name num).1 = true → j = num) := by
  refine forward_grows (s := .output) name (fun i op => ?_) num hi
  dsimp only
  generalize name ++ toString i = outputName
  cases hk : op.outputNameIdx.contains outputName with
  | true => exact .inl rfl
  | false => exact .inr ⟨rfl, hk, rfl, fun _ => rfl, rfl, rfl⟩

theorem updateInputDescAt_grows (index : Nat) (desc : GeTensorDesc) (hi : Indexes op.inputNameIdx op.inputsDesc.length) :
    Grows .input op (op.updateInputDescAt index desc).2 0 := by
  unfold OpDesc.updateInputDescAt
  split
  · exact ⟨by simpa [DescSide.names, DescSide.size] using hi, by simp [DescSide.size], rfl, rfl⟩
  · exact .refl hi

theorem updateInputDesc_grows (name : String) (desc : GeTensorDesc) (hi : Indexes op.inputNameIdx op.inputsDesc.length) :
    Grows .input op (op.updateInputDesc name desc).2 0 := by
  unfold OpDesc.updateInputDesc
  cases op.inputNameIdx.find name with
  | none => exact .refl hi
  | some i => exact updateInputDescAt_grows i desc hi

theorem updateOutputDescAt_grows (index : Nat) (desc : GeTensorDesc) (hi : Indexes op.outputNameIdx op.outputsDesc.length) :
    Grows .output op (op.updateOutputDescAt index desc).2 0 := by
  unfold OpDesc.updateOutputDescAt
  split
  · exact ⟨by simpa [DescSide.names, DescSide.size] using hi, by simp [DescSide.size], rfl, rfl⟩
  · exact .refl hi

theorem updateOutputDesc_grows (name : String) (desc : GeTensorDesc) (hi : Indexes op.outputNameIdx op.outputsDesc.length) :
    Grows .output op (op.updateOutputDesc name desc).2 0 := by
  unfold OpDesc.updateOutputDesc
  cases op.outputNameIdx.find name with
  | none => exact .refl hi
  | some i => exact updateOutputDescAt_grows i desc hi

/-- Adding under a name grows the inputs by one when the name is new, and else not at all. -/
theorem addInputDescNamed_grows (name : String) (desc : GeTensorDesc) (hi : Indexes op.inputNameIdx op.inputsDesc.length) :
    Grows .input op (op.addInputDescNamed name desc).2 (if op.inputNameIdx.contains name then 0 else 1) := by
  unfold OpDesc.addInputDescNamed
  cases hk : op.inputNameIdx.contains name with
  | true => exact updateInputDesc_grows name desc hi
  | false =>
    refine ⟨?_, by simp [DescSide.size], rfl, rfl⟩
    simpa [DescSide.names, DescSide.size] using hi.push hk

theorem addOutputDescNamed_grows (name : String) (desc : GeTensorDesc) (hi : Indexes op.outputNameIdx op.outputsDesc.length) :
    Grows .output op (op.addOutputDescNamed name desc).2 (if (op.addOutputDescNamed name desc).1 then 1 else 0) := by
  unfold OpDesc.addOutputDescNamed
  cases hk : op.outputNameIdx.contains name with
  | true => exact .refl hi
  | false =>
    refine ⟨?_, by simp [DescSide.size], rfl, rfl⟩
    simpa [DescSide.names, DescSide.size] using hi.push hk

/-- Under names that index the inputs, adding under a name succeeds. -/
theorem addInputDescNamed_ok (name : String) (desc : GeTensorDesc) (hi : Indexes op.inputNameIdx op.inputsDesc.length) :
    (op.addInputDescNamed name desc).1 = true := by
  unfold OpDesc.addInputDescNamed
  cases hk : op.inputNameIdx.contains name with
  | false => rfl
  | true =>
    cases hf : op.inputNameIdx.find name with
    | none => simp [OrderedMap.find_eq_none.mp hf] at hk
    | some i => simp [OpDesc.updateInputDesc, hf, OpDesc.updateInputDescAt, hi.lt hf]

theorem addInputDescNamed_names (name : String) (desc : GeTensorDesc) :
    (op.addInputDescNamed name desc).2.inputNameIdx = op.inputNameIdx.insert name op.inputsDesc.length := by
  unfold OpDesc.addInputDescNamed
  cases hk : op.inputNameIdx.contains name with
  | false => rfl
  | true =>
    simp only [if_true, OrderedMap.insert, hk, OpDesc.updateInputDesc, OpDesc.updateInputDescAt]
    split
    · rfl
    · split <;> rfl

theorem numbered_inj (name : String) {i : Nat} (h : name ++ toString i = name ++ toString j) : i = j :=
  Nat.repr_injective ((String.append_right_inj name).mp h)

/-- Adding inputs at the end grows them by the names that are new. -/
theorem addDynamicInputDesc_grows (name : String) (num : Nat) (isPushBack : Bool)
    (hi : Indexes op.inputNameIdx op.inputsDesc.length) :
    ∃ k, Grows .input op (op.addDynamicInputDesc name num isPushBack).2 k ∧
      ((op.addDynamicInputDesc name num isPushBack).1 = true →
        ∀ j ∈ (DescCall.addDynamicInputDesc name num isPushBack).inputsAdded op, j = k) := by
  cases isPushBack with
  | false =>
    obtain ⟨j, hg, hok⟩ := addInputDescForward_grows name num hi
    exact ⟨j, hg, fun h k hk => by rw [hok h]; simpa [DescCall.inputsAdded] using hk.symm⟩
  | true =>
    have hnum : ∀ i, (List.range (i + 1)).countP (fun i => !op.inputNameIdx.contains (name ++ toString i)) =
        (List.range i).countP (fun i => !op.inputNameIdx.contains (name ++ toString i)) +
          if op.inputNameIdx.contains (name ++ toString i) then 0 else 1 := by
      intro i
      rw [range_succ, countP_append, countP_singleton]
      cases op.inputNameIdx.contains (name ++ toString i) <;> rfl
    -- the names that are still to come are there when they were at the start
    have hrun := eachIndex_range (f := fun i op => op.addInputDescNamed (name ++ toString i) {})
      (P := fun i op' => Grows .input op op' ((List.range i).countP fun i => !op.inputNameIdx.contains (name ++ toString i)) ∧
        ∀ j, i ≤ j → op'.inputNameIdx.contains (name ++ toString j) = op.inputNameIdx.contains (name ++ toString j)) ?_ num
      ⟨.refl hi, fun _ _ => rfl⟩
    · obtain ⟨j, ⟨hg, -⟩, hok⟩ := hrun
      exact ⟨_, hg, fun h k hk => by rw [hok h]; simpa [DescCall.inputsAdded] using hk.symm⟩
    · rintro i op' ⟨hg, hsame⟩
      rw [if_pos (addInputDescNamed_ok _ _ hg.indexed), hnum, ← hsame i (Nat.le_refl i)]
      refine ⟨hg.trans (addInputDescNamed_grows _ _ hg.indexed), fun j hj => ?_⟩
      have hne : name ++ toString j ≠ name ++ toString i := fun h => by have := numbered_inj name h; omega
      rw [addInputDescNamed_names, ← hsame j (by omega), OrderedMap.contains_insert]
      simp only [hne, decide_false, Bool.false_or]

/-- Adding outputs at the end grows them by their number, where all names are new. -/
theorem addDynamicOutputDesc_grows (name : String) (num : Nat) (isPushBack : Bool)
    (hi : Indexes op.outputNameIdx op.outputsDesc.length) :
    ∃ k, Grows .output op (op.addDynamicOutputDesc name num isPushBack).2 k ∧
      ((op.addDynamicOutputDesc name num isPushBack).1 = true → k = num) := by
  cases isPushBack with
  | false => exact addOutputDescForward_grows name num hi
  | true =>
    refine eachIndex_range (f := fun i op => op.addOutputDescNamed (name ++ toString i) {})
      (P := fun i op' => Grows .output op op' i) ?_ num (.refl hi)
    intro i op' hg
    have hone := hg.trans (addOutputDescNamed_grows (name ++ toString i) {} hg.indexed)
    split
    · rename_i hok
      rwa [if_pos hok] at hone
    · rename_i hok
      rwa [if_neg hok] at hone

/-! ## Names that are stored -/

/-- What is stored of a map of names leads to what the map leads to below the size. -/
theorem namesFor_cases (size : Nat) {names : OrderedMap String Nat} (hkeys : (names.map Prod.fst).Nodup) :
    (∃ kept, OpDesc.namesFor size names = some kept ∧ (Indexes kept size ↔ DescCall.NamesFit size names)) ∨
      (OpDesc.namesFor size names = none ∧ DescCall.NamesFit size names) := by
  unfold OpDesc.namesFor DescCall.NamesFit
  by_cases hlt : size < names.length
  · have hne : names.length ≠ size := by omega
    by_cases hkept : (names.filter fun e => e.2 < size).length = size
    · refine .inl ⟨_, by rw [if_pos hlt]; exact if_pos hkept, ?_⟩
      have hsub : ((names.filter fun e => e.2 < size).map Prod.fst).Nodup := hkeys.sublist (filter_sublist.map _)
      have hmem : ∀ i < size, (i ∈ (names.filter fun e => e.2 < size).map Prod.snd ↔ i ∈ names.map Prod.snd) := by
        intro i hi
        simp only [List.mem_map, mem_filter, decide_eq_true_eq]
        constructor
        · rintro ⟨e, ⟨he, -⟩, rfl⟩
          exact ⟨e, he, rfl⟩
        · rintro ⟨e, he, rfl⟩
          exact ⟨e, ⟨he, hi⟩, rfl⟩
      rw [indexes_iff_covers hsub hkept]
      exact ⟨fun hcov _ i hi => (hmem i hi).mp (hcov i hi), fun hfit i hi => (hmem i hi).mpr (hfit (.inr ⟨hlt, hkept⟩) i hi)⟩
    · refine .inr ⟨by rw [if_pos hlt]; exact if_neg hkept, ?_⟩
      rintro (heq | ⟨-, heq⟩)
      · exact absurd heq hne
      · exact absurd heq hkept
  · by_cases heq : size = names.length
    · refine .inl ⟨names, by rw [if_neg hlt, if_pos heq], ?_⟩
      rw [indexes_iff_covers hkeys heq.symm]
      exact ⟨fun hcov _ => hcov, fun hfit => hfit (.inl heq.symm)⟩
    · refine .inr ⟨by rw [if_neg hlt, if_neg heq], ?_⟩
      rintro (h | ⟨h, -⟩)
      · exact absurd h.symm heq
      · exact absurd h hlt

/-! ## Descriptors that are cleared -/

/-- Erasing at indices keeps the length of a list exactly when none of them is in it. -/
theorem length_eraseAll (indexList : List Nat) (l : List α) :
    (indexList.foldl (fun l i => l.eraseIdx i) l).length = l.length ↔ ∀ i ∈ indexList, l.length ≤ i := by
  have hle : ∀ (indexList : List Nat) (l : List α), (indexList.foldl (fun l i => l.eraseIdx i) l).length ≤ l.length := by
    intro indexList
    induction indexList with
    | nil => exact fun l => Nat.le_refl _
    | cons i indexList ih => exact fun l => (ih (l.eraseIdx i)).trans (eraseIdx_sublist l i).length_le
  induction indexList with
  | nil => simp
  | cons i indexList ih =>
    rw [foldl_cons, forall_mem_cons]
    by_cases hlt : i < l.length
    · have hless := hle indexList (l.eraseIdx i)
      have hone := length_eraseIdx_of_lt hlt
      exact iff_of_false (by omega) fun h => absurd h.1 (by omega)
    · have hsame : l.eraseIdx i = l := eraseIdx_of_length_le (Nat.le_of_not_lt hlt)
      rw [hsame]
      exact ih.trans ⟨fun h => ⟨Nat.le_of_not_lt hlt, h⟩, fun h => h.2⟩

/-! ## Calls -/

variable {c : DescCall}

theorem leaves_of_inputs (hn : op.NamesIndex) (hg : Grows .input op (c.run op).2 k)
    (hin : (c.run op).1 = true → ∀ j ∈ c.inputsAdded op, j = k) (hout : ∀ j ∈ c.outputsAdded, j = 0) : c.Leaves op := by
  have hnames : (c.run op).2.outputNameIdx = op.outputNameIdx := hg.otherNames
  have hsize : (c.run op).2.outputsDesc.length = op.outputsDesc.length := hg.otherSize
  refine ⟨⟨hg.indexed, ?_⟩, fun hok j hj => ?_, fun _ j hj => ?_⟩
  · rw [hnames, hsize]
    exact hn.output
  · rw [hin hok j hj]
    exact hg.size
  · rw [hout j hj, hsize, Nat.add_zero]

theorem leaves_of_outputs (hn : op.NamesIndex) (hg : Grows .output op (c.run op).2 k)
    (hout : (c.run op).1 = true → ∀ j ∈ c.outputsAdded, j = k) (hin : ∀ j ∈ c.inputsAdded op, j = 0) : c.Leaves op := by
  have hnames : (c.run op).2.inputNameIdx = op.inputNameIdx := hg.otherNames
  have hsize : (c.run op).2.inputsDesc.length = op.inputsDesc.length := hg.otherSize
  refine ⟨⟨?_, hg.indexed⟩, fun _ j hj => ?_, fun hok j hj => ?_⟩
  · rw [hnames, hsize]
    exact hn.input
  · rw [hin j hj, hsize, Nat.add_zero]
  · rw [hout hok j hj]
    exact hg.size

/-- Appending under a name made up from the position grows the inputs when the name is new. -/
theorem appended_iff (hn : op.NamesIndex) {desc : GeTensorDesc} (hrun : c.run op = op.addInputDesc desc)
    (hin : c.inputsAdded op = some 1) (hout : c.outputsAdded = some 0) :
    c.Leaves op ↔ op.inputNameIdx.contains ("__input" ++ toString op.inputsDesc.length) = false := by
  have hg := addInputDescNamed_grows ("__input" ++ toString op.inputsDesc.length) desc hn.input
  have hok := addInputDescNamed_ok ("__input" ++ toString op.inputsDesc.length) desc hn.input
  constructor
  · intro hleft
    have hsize := hleft.inputs (by rw [hrun]; exact hok) 1 hin
    have hgrown := hg.size
    rw [hrun] at hsize
    simp only [DescSide.size, OpDesc.addInputDesc] at hsize hgrown
    cases hk : op.inputNameIdx.contains ("__input" ++ toString op.inputsDesc.length) with
    | false => rfl
    | true =>
      rw [hk, if_pos rfl] at hgrown
      omega
  · intro hk
    rw [hk] at hg
    refine leaves_of_inputs hn (k := 1) ?_ (fun _ j hj => ?_) fun j hj => ?_
    · rw [hrun]
      exact hg
    · exact Option.some.inj (hj.symm.trans hin)
    · exact Option.some.inj (hj.symm.trans hout)

/-- What takes input descriptors away leaves names that index them when it takes none. -/
theorem cleared_iff (hn : op.NamesIndex) (hrun : (c.run op).2 = { op with inputsDesc := l })
    (hin : c.inputsAdded op = none) (hout : c.outputsAdded = some 0) : c.Leaves op ↔ l.length = op.inputsDesc.length := by
  constructor
  · intro hleft
    have hi := hleft.indexed.input
    rw [hrun] at hi
    exact hi.length_eq.symm.trans hn.input.length_eq
  · intro hlen
    refine leaves_of_inputs hn (k := 0) ?_ (fun _ j hj => ?_) fun j hj => ?_
    · rw [hrun]
      refine ⟨?_, hlen, rfl, rfl⟩
      show Indexes op.inputNameIdx l.length
      exact hlen ▸ hn.input
    · cases hin.symm.trans hj
    · exact Option.some.inj (hj.symm.trans hout)

theorem clearedOutput_iff (hn : op.NamesIndex) (hrun : (c.run op).2 = { op with outputsDesc := l })
    (hin : c.inputsAdded op = some 0) (hout : c.outputsAdded = none) : c.Leaves op ↔ l.length = op.outputsDesc.length := by
  constructor
  · intro hleft
    have hi := hleft.indexed.output
    rw [hrun] at hi
    exact hi.length_eq.symm.trans hn.output.length_eq
  · intro hlen
    refine leaves_of_outputs hn (k := 0) ?_ (fun _ j hj => ?_) fun j hj => ?_
    · rw [hrun]
      refine ⟨?_, hlen, rfl, rfl⟩
      show Indexes op.outputNameIdx l.length
      exact hlen ▸ hn.output
    · cases hout.symm.trans hj
    · exact Option.some.inj (hj.symm.trans hin)

theorem length_eraseIdx_iff (l : List α) (i : Nat) : (l.eraseIdx i).length = l.length ↔ l.length ≤ i := by
  simpa using length_eraseAll [i] l

/-- Where the names index the descriptors, a call leaves what it should exactly when it fits. -/
theorem descriptors_leaves_iff (hn : op.NamesIndex) : c.Leaves op ↔ c.Fits op := by
  cases c with
  | addInputDesc desc => exact appended_iff hn rfl rfl rfl
  | addInputDescAt index desc =>
    simp only [DescCall.Fits]
    by_cases hlt : index < op.inputsDesc.length
    · have hrun : (DescCall.addInputDescAt index desc).run op = op.updateInputDescAt index desc := if_pos hlt
      refine iff_of_true (leaves_of_inputs hn (k := 0) ?_ (fun _ j hj => ?_) (by simp [DescCall.outputsAdded])) fun h => by omega
      · rw [hrun]
        exact updateInputDescAt_grows index desc hn.input
      · simpa [DescCall.inputsAdded, hlt] using hj.symm
    · have hrun : (DescCall.addInputDescAt index desc).run op = op.addInputDesc desc := if_neg hlt
      rw [appended_iff hn hrun (by simp [DescCall.inputsAdded, hlt]) rfl]
      exact ⟨fun h _ => h, fun h => h (Nat.le_of_not_lt hlt)⟩
  | addInputDescNamed name desc =>
    exact iff_of_true (leaves_of_inputs hn (addInputDescNamed_grows name desc hn.input) (by simp [DescCall.inputsAdded])
      (by simp [DescCall.outputsAdded])) trivial
  | addInputDescMiddle name num index =>
    obtain ⟨j, hg, hok⟩ := addInputDescMiddle_grows name num index hn.input
    refine iff_of_true (leaves_of_inputs hn hg (fun h k hk => ?_) (by simp [DescCall.outputsAdded])) trivial
    exact (Option.some.inj hk).symm.trans (hok h).symm
  | addInputDescForward name num =>
    obtain ⟨j, hg, hok⟩ := addInputDescForward_grows name num hn.input
    refine iff_of_true (leaves_of_inputs hn hg (fun h k hk => ?_) (by simp [DescCall.outputsAdded])) trivial
    exact (Option.some.inj hk).symm.trans (hok h).symm
  | addOptionalInputDesc name desc =>
    have hg := addInputDescNamed_grows name desc hn.input
    refine iff_of_true (leaves_of_inputs hn (k := if op.inputNameIdx.contains name then 0 else 1) ?_
      (by simp [DescCall.inputsAdded]) (by simp [DescCall.outputsAdded])) trivial
    -- the name is also entered among those of the optional inputs
    have hopt : (DescCall.addOptionalInputDesc name desc).run op = (true,
        { (op.addInputDescNamed name desc).2 with
          optionalInputNames := (op.addInputDescNamed name desc).2.optionalInputNames.insert name () }) := by
      have hok := addInputDescNamed_ok name desc hn.input
      simp only [DescCall.run, OpDesc.addOptionalInputDesc]
      rcases hr : op.addInputDescNamed name desc with ⟨ok, op'⟩
      rw [hr] at hok
      obtain rfl : ok = true := hok
      rfl
    rw [hopt]
    exact ⟨hg.indexed, hg.size, hg.otherNames, hg.otherSize⟩
  | addDynamicInputDesc name num isPushBack =>
    obtain ⟨k, hg, hok⟩ := addDynamicInputDesc_grows name num isPushBack hn.input
    exact iff_of_true (leaves_of_inputs hn hg hok (by simp [DescCall.outputsAdded])) trivial
  | addDynamicInputDescByIndex name num index =>
    obtain ⟨j, hg, hok⟩ := addInputDescMiddle_grows name num index hn.input
    refine iff_of_true (leaves_of_inputs hn hg (fun h k hk => ?_) (by simp [DescCall.outputsAdded])) trivial
    exact (Option.some.inj hk).symm.trans (hok h).symm
  | updateInputDescAt index desc =>
    exact iff_of_true (leaves_of_inputs hn (updateInputDescAt_grows index desc hn.input) (by simp [DescCall.inputsAdded])
      (by simp [DescCall.outputsAdded])) trivial
  | updateInputDesc name desc =>
    exact iff_of_true (leaves_of_inputs hn (updateInputDesc_grows name desc hn.input) (by simp [DescCall.inputsAdded])
      (by simp [DescCall.outputsAdded])) trivial
  | updateInputName names =>
    rcases namesFor_cases op.inputsDesc.length names.2 with ⟨kept, hkept, hiff⟩ | ⟨hnone, hfit⟩
    · have hrun : (DescCall.updateInputName names).run op = (true, { op with inputNameIdx := kept }) := by
        simp [DescCall.run, OpDesc.updateInputName, hkept]
      refine Iff.trans ⟨fun hleft => ?_, fun hi => ?_⟩ hiff
      · have hi := hleft.indexed.input
        rwa [hrun] at hi
      · refine leaves_of_inputs hn (k := 0) ?_ (by simp [DescCall.inputsAdded]) (by simp [DescCall.outputsAdded])
        rw [hrun]
        exact ⟨hi, rfl, rfl, rfl⟩
    · have hrun : (DescCall.updateInputName names).run op = (false, op) := by
        simp [DescCall.run, OpDesc.updateInputName, hnone]
      refine iff_of_true (leaves_of_inputs hn (k := 0) ?_ (by simp [DescCall.inputsAdded]) (by simp [DescCall.outputsAdded])) hfit
      rw [hrun]
      exact .refl hn.input
  | clearInputDesc index =>
    by_cases hlt : index < op.inputsDesc.length
    · rw [cleared_iff hn (l := op.inputsDesc.eraseIdx index) (by simp [DescCall.run, OpDescUtils.clearInputDesc, hlt]) rfl rfl]
      exact length_eraseIdx_iff _ _
    · rw [cleared_iff hn (l := op.inputsDesc) (by simp [DescCall.run, OpDescUtils.clearInputDesc, hlt]) rfl rfl]
      exact iff_of_true rfl (Nat.le_of_not_lt hlt)
  | clearInputDescs indexList =>
    rw [cleared_iff hn (l := (indexList.mergeSort (· ≤ ·)).foldl (fun l i => l.eraseIdx i) op.inputsDesc) rfl rfl rfl,
      length_eraseAll]
    exact ⟨fun h i hi => h i (mem_mergeSort.mpr hi), fun h i hi => h i (mem_mergeSort.mp hi)⟩
  | addOutputDesc desc =>
    refine iff_of_true (leaves_of_outputs hn (addOutputDescNamed_grows _ desc hn.output) (fun hok j hj => ?_)
      (by simp [DescCall.inputsAdded])) trivial
    simp only [DescCall.run, OpDesc.addOutputDesc] at hok
    rw [hok]
    exact (Option.some.inj hj).symm
  | addOutputDescNamed name desc =>
    refine iff_of_true (leaves_of_outputs hn (addOutputDescNamed_grows name desc hn.output) (fun hok j hj => ?_)
      (by simp [DescCall.inputsAdded])) trivial
    simp only [DescCall.run] at hok
    rw [hok]
    exact (Option.some.inj hj).symm
  | addOutputDescMiddle name num index =>
    obtain ⟨j, hg, hok⟩ := addOutputDescMiddle_grows name num index hn.output
    refine iff_of_true (leaves_of_outputs hn hg (fun h k hk => ?_) (by simp [DescCall.inputsAdded])) trivial
    exact (Option.some.inj hk).symm.trans (hok h).symm
  | addOutputDescForward name num =>
    obtain ⟨j, hg, hok⟩ := addOutputDescForward_grows name num hn.output
    refine iff_of_true (leaves_of_outputs hn hg (fun h k hk => ?_) (by simp [DescCall.inputsAdded])) trivial
    exact (Option.some.inj hk).symm.trans (hok h).symm
  | addDynamicOutputDesc name num isPushBack =>
    obtain ⟨j, hg, hok⟩ := addDynamicOutputDesc_grows name num isPushBack hn.output
    refine iff_of_true (leaves_of_outputs hn hg (fun h k hk => ?_) (by simp [DescCall.inputsAdded])) trivial
    exact (Option.some.inj hk).symm.trans (hok h).symm
  | updateOutputDescAt index desc =>
    exact iff_of_true (leaves_of_outputs hn (updateOutputDescAt_grows index desc hn.output) (by simp [DescCall.outputsAdded])
      (by simp [DescCall.inputsAdded])) trivial
  | updateOutputDesc name desc =>
    exact iff_of_true (leaves_of_outputs hn (updateOutputDesc_grows name desc hn.output) (by simp [DescCall.outputsAdded])
      (by simp [DescCall.inputsAdded])) trivial
  | updateOutputName names =>
    rcases namesFor_cases op.outputsDesc.length names.2 with ⟨kept, hkept, hiff⟩ | ⟨hnone, hfit⟩
    · have hrun : (DescCall.updateOutputName names).run op = (true, { op with outputNameIdx := kept }) := by
        simp [DescCall.run, OpDesc.updateOutputName, hkept]
      refine Iff.trans ⟨fun hleft => ?_, fun hi => ?_⟩ hiff
      · have hi := hleft.indexed.output
        rwa [hrun] at hi
      · refine leaves_of_outputs hn (k := 0) ?_ (by simp [DescCall.outputsAdded]) (by simp [DescCall.inputsAdded])
        rw [hrun]
        exact ⟨hi, rfl, rfl, rfl⟩
    · have hrun : (DescCall.updateOutputName names).run op = (false, op) := by
        simp [DescCall.run, OpDesc.updateOutputName, hnone]
      refine iff_of_true (leaves_of_outputs hn (k := 0) ?_ (by simp [DescCall.outputsAdded]) (by simp [DescCall.inputsAdded])) hfit
      rw [hrun]
      exact .refl hn.output
  | clearOutputDesc index =>
    by_cases hlt : index < op.outputsDesc.length
    · rw [clearedOutput_iff hn (l := op.outputsDesc.eraseIdx index) (by simp [DescCall.run, OpDescUtils.clearOutputDesc, hlt])
        rfl rfl]
      exact length_eraseIdx_iff _ _
    · rw [clearedOutput_iff hn (l := op.outputsDesc) (by simp [DescCall.run, OpDescUtils.clearOutputDesc, hlt]) rfl rfl]
      exact iff_of_true rfl (Nat.le_of_not_lt hlt)
  | clearOutputDescs indexList =>
    rw [clearedOutput_iff hn (l := (indexList.mergeSort (· ≤ ·)).foldl (fun l i => l.eraseIdx i) op.outputsDesc) rfl rfl rfl,
      length_eraseAll]
    exact ⟨fun h i hi => h i (mem_mergeSort.mpr hi), fun h i hi => h i (mem_mergeSort.mp hi)⟩

end DescriptorAux

open DescriptorAux

/-- From a descriptor whose names index its tensor descriptors, every call of a run leaves names that index them, and grows the
lists by what it adds, exactly when every call fits. -/
theorem descriptor_names_iff (calls : List DescCall) (op : OpDesc) (hop : op.NamesIndex) :
    (∃ op', Run.exec DescCall.step calls op = some op') ∧
      (Run.Each DescCall.step (fun op c => c.Leaves op) calls op ↔ Run.Each DescCall.step (fun op c => c.Fits op) calls op) := by
  refine ⟨Run.exec_returns (fun op c => ⟨_, rfl⟩) calls op, Run.each_congr (P := OpDesc.NamesIndex) ?_ ?_ calls op hop⟩
  · exact fun op c hn => descriptors_leaves_iff hn
  · intro op c op' _ hleft hstep
    obtain rfl : (c.run op).2 = op' := Option.some.inj hstep
    exact hleft.indexed

namespace DescriptorWitness

theorem named_empty : ({} : OpDesc).NamesIndex := ⟨indexes_nil, indexes_nil⟩

/-- Inputs added at the end, in the middle and at the front. -/
theorem descriptor_names_iff_added :
    Run.Each DescCall.step (fun op c => c.Leaves op)
      [.addInputDesc {}, .addInputDescMiddle "x" 2 1, .addInputDescForward "y" 1, .addDynamicInputDesc "x" 3 true] {} :=
  (descriptor_names_iff _ {} named_empty).2.mpr (by decide +kernel)

/-- A descriptor that is cleared leaves its name behind, and a made-up name that is there already adds no input. -/
theorem descriptor_names_false :
    (¬ ∀ calls op', Run.exec DescCall.step calls {} = some op' → op'.NamesIndex) ∧
      ¬ ∀ calls, Run.Each DescCall.step (fun op c => (c.run op).1 = true → ∀ k ∈ c.inputsAdded op,
        (c.run op).2.inputsDesc.length = op.inputsDesc.length + k) calls {} := by
  constructor
  · intro hall
    have hnames := hall [.addInputDesc {}, .clearInputDesc 0] _ rfl
    exact absurd hnames.input (by decide +kernel)
  · intro hall
    obtain ⟨-, hrest⟩ := hall [.addInputDescNamed "__input1" {}, .addInputDesc {}]
    have hsize := (hrest _ rfl).1 rfl 1 rfl
    exact absurd hsize (by decide +kernel)

end DescriptorWitness

end Metadef
