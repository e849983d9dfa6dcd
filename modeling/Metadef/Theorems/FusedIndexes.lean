import Mathlib.Data.String.Basic
import Metadef.ScopeGraph

/-!
# Entries that belong to a node

An entry belongs to a node when its name is the node's, or the node's after a slash. The first entry in the order of names with which
the name of the node ends, slash or not, is the one that is taken: the index is right when it has the index of the longest name that
belongs.
-/

namespace Metadef

open List

namespace ScopeGraph

/-- A name is another, or the end of another after a slash. -/
def Belongs (nodeName name : String) : Prop := name.toList = nodeName.toList ∨ ('/' :: name.toList) <:+ nodeName.toList

/-- The entry that belongs to a node, of the longest name. -/
def Owner (m : OrderedMap String (List Int)) (nodeName name : String) (indexs : List Int) : Prop :=
  (name, indexs) ∈ m ∧ Belongs nodeName name ∧
    ∀ e ∈ m, Belongs nodeName e.1 → e.1.toList.length ≤ name.toList.length

/-- The first entry, in the order of names, that the name of a node ends with. -/
def FirstEnd (m : OrderedMap String (List Int)) (nodeName name : String) (indexs : List Int) : Prop :=
  (name, indexs) ∈ m ∧ name.toList <:+ nodeName.toList ∧ ∀ e ∈ m, e.1.toList <:+ nodeName.toList → name ≤ e.1

/-- The index a node should have: that of the entry that belongs to it, if there is one that is long enough. -/
def RightIndex (m : OrderedMap String (List Int)) (nodeName : String) (oldIndex : Nat) (newIndex : Int) : Prop :=
  (∀ name indexs, Owner m nodeName name indexs → newIndex = indexs.getD oldIndex kFusionDisableIndex) ∧
    ((∀ e ∈ m, ¬Belongs nodeName e.1) → newIndex = kFusionDisableIndex)

/-- The index at a place of a list, where lists are as long as their sizes in 32 bits. -/
def indexIn (indexs : List Int) (oldIndex : Nat) : Int :=
  if int32OfSize indexs.length ≤ oldIndex then kFusionDisableIndex else indexs.getD oldIndex kFusionDisableIndex

end ScopeGraph

namespace FusedIndexesAux

open ScopeGraph

variable {r : FusionScopesResult} {m : OrderedMap String (List Int)} {nodeName name : String} {indexs : List Int}

/-! ## Names -/

theorem eq_endOf_iff : name.toList = endOf nodeName name.toList.length ↔ name.toList <:+ nodeName.toList := by
  have hend : endOf nodeName name.toList.length = nodeName.toList.drop (nodeName.toList.length - name.toList.length) := by
    unfold endOf
    split
    · rfl
    · rw [Nat.sub_eq_zero_of_le (by omega), drop_zero]
  rw [hend]
  exact suffix_iff_eq_drop.symm

theorem suffix_of_belongs (h : Belongs nodeName name) : name.toList <:+ nodeName.toList := by
  rcases h with h | h
  · exact h ▸ suffix_refl name.toList
  · exact (suffix_cons _ _).trans h

/-! ## Entries -/

/-- The entries of a fused op are in the order of their names, each name once. -/
theorem sorted_runAll (calls : List FusionResultCall) : ((FusionResultCall.runAll calls).inputs.Pairwise fun d e => d.1 < e.1) ∧
      (FusionResultCall.runAll calls).outputs.Pairwise fun d e => d.1 < e.1 := by
  have hstep : ∀ r : FusionScopesResult, (r.inputs.Pairwise fun d e => d.1 < e.1) → (r.outputs.Pairwise fun d e => d.1 < e.1) →
      ((calls.foldl FusionResultCall.run r).inputs.Pairwise fun d e => d.1 < e.1) ∧
        (calls.foldl FusionResultCall.run r).outputs.Pairwise fun d e => d.1 < e.1 := by
    induction calls with
    | nil => exact fun _ hi ho => ⟨hi, ho⟩
    | cons c calls ih =>
      intro r hi ho
      cases c with
      | insertInputs innerOpName indexMap => exact ih _ (OrderedMap.sorted_insert hi innerOpName indexMap) ho
      | insertOutputs innerOpName indexMap => exact ih _ hi (OrderedMap.sorted_insert ho innerOpName indexMap)
  exact hstep {} .nil .nil

/-- The entry taken is the first whose name the node's ends with. -/
theorem find_eq_some_iff (hs : m.Pairwise fun d e => d.1 < e.1) :
    (m.find? fun e => e.1.toList = endOf nodeName e.1.toList.length) = some (name, indexs) ↔ FirstEnd m nodeName name indexs := by
  induction m with
  | nil => simp [FirstEnd]
  | cons d m ih =>
    obtain ⟨hd, hs⟩ := pairwise_cons.mp hs
    rw [find?_cons]
    by_cases hend : d.1.toList <:+ nodeName.toList
    · rw [decide_eq_true (eq_endOf_iff.mpr hend)]
      constructor
      · intro h
        cases Option.some.inj h
        refine ⟨mem_cons_self, hend, fun e he _ => ?_⟩
        rcases mem_cons.mp he with rfl | he
        · exact le_refl _
        · exact le_of_lt (hd e he)
      · rintro ⟨hmem, -, hle⟩
        rcases mem_cons.mp hmem with heq | hmem
        · rw [heq]
        · exact absurd (hle d mem_cons_self hend) (not_le_of_gt (hd _ hmem))
    · rw [decide_eq_false fun h => hend (eq_endOf_iff.mp h)]
      refine (ih hs).trans ⟨fun ⟨hmem, hname, hle⟩ => ⟨mem_cons_of_mem d hmem, hname, fun e he hend' => ?_⟩,
        fun ⟨hmem, hname, hle⟩ => ⟨?_, hname, fun e he => hle e (mem_cons_of_mem d he)⟩⟩
      · rcases mem_cons.mp he with rfl | he
        · exact absurd hend' hend
        · exact hle e he hend'
      · rcases mem_cons.mp hmem with heq | hmem
        · rw [← heq] at hend
          exact absurd hname hend
        · exact hmem

theorem find_eq_none_iff : (m.find? fun e => e.1.toList = endOf nodeName e.1.toList.length) = none ↔
    ∀ e ∈ m, ¬e.1.toList <:+ nodeName.toList := by
  rw [find?_eq_none]
  simp only [decide_eq_true_eq, eq_endOf_iff]

/-! ## Indexes -/

theorem int32OfSize_le (size : Nat) : int32OfSize size ≤ size := by
  unfold int32OfSize
  rewrite [Int.bmod_def]
  have hpow : ((2 ^ 32 : Nat) : Int) = 4294967296 := rfl
  rewrite [hpow]
  split <;> omega

/-- What is read of the list taken. -/
theorem read_eq {oldIndex : Nat} (h : (oldIndex : Int) + 1 ≤ 2 ^ 31 - 1) :
    (if int32OfSize indexs.length < (oldIndex : Int) + 1 then some kFusionDisableIndex
      else if (oldIndex : Int) < 0 then none else indexs[(oldIndex : Int).toNat]?) = some (indexIn indexs oldIndex) := by
  have hle := int32OfSize_le indexs.length
  unfold indexIn
  by_cases hlt : int32OfSize indexs.length < (oldIndex : Int) + 1
  · rw [if_pos hlt, if_pos (by omega)]
  · have hin : oldIndex < indexs.length := by omega
    rw [if_neg hlt, if_neg (by omega), if_neg (by omega), Int.toNat_natCast, getElem?_eq_getElem hin,
      getD_eq_getElem?_getD, getElem?_eq_getElem hin, Option.getD_some]

theorem indexIn_nil (oldIndex : Nat) : indexIn [] oldIndex = kFusionDisableIndex := by
  have h0 : int32OfSize ([] : List Int).length ≤ (0 : Nat) := int32OfSize_le 0
  exact if_pos (by omega)

/-- The list that is taken of a map: that of the first entry the name ends with, or none. -/
theorem taken_cases (m : OrderedMap String (List Int)) (hs : m.Pairwise fun d e => d.1 < e.1) (nodeName : String) :
    (∃ name indexs, FirstEnd m nodeName name indexs ∧
      ((m.find? fun e => e.1.toList = endOf nodeName e.1.toList.length).map Prod.snd).getD [] = indexs) ∨
    ((∀ e ∈ m, ¬e.1.toList <:+ nodeName.toList) ∧
      ((m.find? fun e => e.1.toList = endOf nodeName e.1.toList.length).map Prod.snd).getD [] = []) := by
  cases hfind : m.find? fun e => e.1.toList = endOf nodeName e.1.toList.length with
  | none => exact .inr ⟨find_eq_none_iff.mp hfind, rfl⟩
  | some e => exact .inl ⟨e.1, e.2, (find_eq_some_iff hs).mp hfind, rfl⟩

/-- There is one first entry. -/
theorem FirstEnd.unique (hs : m.Pairwise fun d e => d.1 < e.1) {name' : String} {indexs' : List Int}
    (h : FirstEnd m nodeName name indexs) (h' : FirstEnd m nodeName name' indexs') : name = name' ∧ indexs = indexs' := by
  have heq := ((find_eq_some_iff hs).mpr h).symm.trans ((find_eq_some_iff hs).mpr h')
  exact Prod.mk.inj (Option.some.inj heq)

/-- What is read of the list taken is right exactly when what is read of the first entry is, if there is one. -/
theorem right_iff (hs : m.Pairwise fun d e => d.1 < e.1) (oldIndex : Nat) : RightIndex m nodeName oldIndex
        (indexIn (((m.find? fun e => e.1.toList = endOf nodeName e.1.toList.length).map Prod.snd).getD []) oldIndex) ↔
      ∀ name indexs, FirstEnd m nodeName name indexs → RightIndex m nodeName oldIndex (indexIn indexs oldIndex) := by
  rcases taken_cases m hs nodeName with ⟨name, indexs, hfirst, htaken⟩ | ⟨hnone, htaken⟩
  · rw [htaken]
    refine ⟨fun h name' indexs' hfirst' => ?_, fun h => h name indexs hfirst⟩
    obtain ⟨-, rfl⟩ := FirstEnd.unique hs hfirst hfirst'
    exact h
  · rw [htaken, indexIn_nil]
    refine iff_of_true ⟨fun name indexs howner => ?_, fun _ => rfl⟩ fun name indexs hfirst => ?_
    · exact absurd (suffix_of_belongs howner.2.1) (hnone _ howner.1)
    · exact absurd hfirst.2.1 (hnone _ hfirst.1)

/-- The list taken is not empty exactly when that of the first entry is not. -/
theorem taken_ne_nil_iff (hs : m.Pairwise fun d e => d.1 < e.1) (nodeName : String) :
    ((m.find? fun e => e.1.toList = endOf nodeName e.1.toList.length).map Prod.snd).getD [] ≠ [] ↔
      ∃ name indexs, FirstEnd m nodeName name indexs ∧ indexs ≠ [] := by
  rcases taken_cases m hs nodeName with ⟨name, indexs, hfirst, htaken⟩ | ⟨hnone, htaken⟩
  · rw [htaken]
    refine ⟨fun h => ⟨name, indexs, hfirst, h⟩, fun ⟨name', indexs', hfirst', h⟩ => ?_⟩
    obtain ⟨-, rfl⟩ := FirstEnd.unique hs hfirst hfirst'
    exact h
  · rw [htaken]
    refine iff_of_false (fun h => h rfl) ?_
    rintro ⟨name, indexs, hfirst, -⟩
    exact hnone _ hfirst.1 hfirst.2.1

end FusedIndexesAux

open ScopeGraph FusedIndexesAux

/-! ## Right indexes -/

/-- An index of a node is right exactly when the next can be counted and the first entry the node's name ends with, if there is one,
has the index of the entry that belongs to the node. A node is ignored exactly when no entry belongs to it if the first entries for
inputs and for outputs are empty, or missing, just when none belongs. -/
theorem fusedIndexes_iff (fusionResults : OrderedMap String FusionScopesResult) (info : ScopeFusionOpInfo)
    (calls : List FusionResultCall) (hfound : fusionResults.find info.fusionNodeName = some (FusionResultCall.runAll calls))
    (oldIndex : Nat) (input : Bool) :
    ((∃ newIndex, getInputOrOutputIndex fusionResults info oldIndex input = some newIndex ∧
        RightIndex (if input then (FusionResultCall.runAll calls).inputs else (FusionResultCall.runAll calls).outputs) info.nodeName
          oldIndex newIndex) ↔
      oldIndex + 1 < 2 ^ 31 ∧ ∀ name indexs,
        FirstEnd (if input then (FusionResultCall.runAll calls).inputs else (FusionResultCall.runAll calls).outputs) info.nodeName
          name indexs →
        RightIndex (if input then (FusionResultCall.runAll calls).inputs else (FusionResultCall.runAll calls).outputs) info.nodeName
          oldIndex (indexIn indexs oldIndex)) ∧
    ((fusionOpChildIgnore fusionResults info = true ↔
        ∀ e, e ∈ (FusionResultCall.runAll calls).inputs ∨ e ∈ (FusionResultCall.runAll calls).outputs →
          ¬Belongs info.nodeName e.1) ↔
      ((∃ name indexs, (FirstEnd (FusionResultCall.runAll calls).inputs info.nodeName name indexs ∨
          FirstEnd (FusionResultCall.runAll calls).outputs info.nodeName name indexs) ∧ indexs ≠ []) ↔
        ∃ e, (e ∈ (FusionResultCall.runAll calls).inputs ∨ e ∈ (FusionResultCall.runAll calls).outputs) ∧
          Belongs info.nodeName e.1)) := by
  obtain ⟨hin, hout⟩ := sorted_runAll calls
  generalize FusionResultCall.runAll calls = r at hfound hin hout
  have htaken : ∀ input : Bool, getFusionResultInputOrOutput fusionResults info input =
      (((if input then r.inputs else r.outputs).find? fun e => e.1.toList = endOf info.nodeName e.1.toList.length).map
        Prod.snd).getD [] := by
    intro input
    unfold getFusionResultInputOrOutput
    rw [hfound]
  constructor
  · have hs : (if input then r.inputs else r.outputs).Pairwise fun d e => d.1 < e.1 := by cases input <;> assumption
    rw [← right_iff hs, ← htaken]
    unfold getInputOrOutputIndex
    rewrite [if_neg (by omega)]
    by_cases hmax : (oldIndex : Int) + 1 > 2 ^ 31 - 1
    · rw [if_pos hmax]
      refine iff_of_false ?_ fun h => ?_
      · rintro ⟨_, h, -⟩
        cases h
      · have := h.1
        omega
    · rw [if_neg hmax]
      dsimp only
      rw [read_eq (by omega)]
      constructor
      · rintro ⟨newIndex, heq, hright⟩
        obtain rfl := Option.some.inj heq
        exact ⟨by omega, hright⟩
      · rintro ⟨-, hright⟩
        exact ⟨_, rfl, hright⟩
  · have hignore : fusionOpChildIgnore fusionResults info = true ↔ ¬∃ name indexs,
        (FirstEnd r.inputs info.nodeName name indexs ∨ FirstEnd r.outputs info.nodeName name indexs) ∧ indexs ≠ [] := by
      have h1 := taken_ne_nil_iff hin info.nodeName
      have h2 := taken_ne_nil_iff hout info.nodeName
      have hi := htaken true
      have ho := htaken false
      rw [if_pos rfl] at hi
      rw [if_neg (by decide)] at ho
      rw [← hi] at h1
      rw [← ho] at h2
      unfold fusionOpChildIgnore
      simp only [or_and_right, exists_or, ← h1, ← h2]
      simp
    rw [hignore]
    have hnone : (∀ e, e ∈ r.inputs ∨ e ∈ r.outputs → ¬Belongs info.nodeName e.1) ↔
        ¬∃ e, (e ∈ r.inputs ∨ e ∈ r.outputs) ∧ Belongs info.nodeName e.1 := by
      simp only [not_exists, not_and]
    rw [hnone, not_iff_not]

/-! ## The end of a component -/

namespace FusedIndexesWitness

/-- Indexes for the inputs of an op. -/
def calls : List FusionResultCall := [.insertInputs "conv" [1]]

def results : OrderedMap String FusionScopesResult := [("fused", FusionResultCall.runAll calls)]

/-- The op itself, and another whose name ends with its letters. -/
def inside : ScopeFusionOpInfo := { nodeName := "scope/conv", fusionNodeName := "fused" }

def other : ScopeFusionOpInfo := { nodeName := "scope/myconv", fusionNodeName := "fused" }

theorem fusedIndexes_inside : (∃ newIndex, getInputOrOutputIndex results inside 0 true = some newIndex ∧
      RightIndex (FusionResultCall.runAll calls).inputs inside.nodeName 0 newIndex) ↔
    0 + 1 < 2 ^ 31 ∧ ∀ name indexs, FirstEnd (FusionResultCall.runAll calls).inputs inside.nodeName name indexs →
      RightIndex (FusionResultCall.runAll calls).inputs inside.nodeName 0 (indexIn indexs 0) :=
  (fusedIndexes_iff results inside calls rfl 0 true).1

/-- The other is given the index of the op, though no entry belongs to it. -/
theorem fusedIndexes_false : ¬∃ newIndex, getInputOrOutputIndex results other 0 true = some newIndex ∧
    RightIndex (FusionResultCall.runAll calls).inputs other.nodeName 0 newIndex := by
  rintro ⟨newIndex, hget, -, hnone⟩
  have hone : getInputOrOutputIndex results other 0 true = some 1 := by decide +kernel
  obtain rfl := Option.some.inj (hone.symm.trans hget)
  have hkeys : ∀ e ∈ (FusionResultCall.runAll calls).inputs, ¬Belongs other.nodeName e.1 := by
    unfold Belongs
    decide +kernel
  exact absurd (hnone hkeys) (by decide)

end FusedIndexesWitness

end Metadef
