import Mathlib.Data.List.GetD
import Metadef.Lib.Marking
import Metadef.FusionPattern

/-!
# The search for a pattern as a walk over pairs

Which edges of a node go to which inputs of an op does not depend on the mapping. So the search for a pattern marks pairs of a node and
an op, and the mapping is what is marked, op by op.
-/

namespace Metadef

open List OrderedMap

open PatternFusion

namespace FusionMatching

variable (originalType : OpId → String) (h : Heap) (p : FusionPattern)

/-! ## Edges given to the inputs of an op -/

/-- Gives each edge, in order, to the first input of the pattern that takes it. -/
def give (inputs : List PatternOpId) : List Bool → List AnchorId → List (AnchorId × Nat)
  | _, [] => []
  | usageFlags, a :: anchors =>
    match (sourceOf h a).bind (choose originalType h p inputs usageFlags) with
    | none => give inputs usageFlags anchors
    | some j => (a, j) :: give inputs (usageFlags.set j true) anchors

/-- The edges of a node with the inputs of an op they are given to. -/
def given (n : NodeId) (op : PatternOpId) : List (AnchorId × Nat) :=
  give originalType h p (p.getInputs op) (List.replicate (p.getInputs op).length false) (sortedAnchors h n)

/-- Every input of an op is given an edge of the node. -/
def Fed (c : NodeId × PatternOpId) : Prop :=
  ∀ j < (p.getInputs c.2).length, ∃ e ∈ given originalType h p c.1 c.2, e.2 = j

instance (c : NodeId × PatternOpId) : Decidable (Fed originalType h p c) :=
  inferInstanceAs (Decidable (∀ j < _, ∃ e ∈ given originalType h p c.1 c.2, e.2 = j))

/-- The pair an edge given to an input of an op leads to. -/
def pairOf (op : PatternOpId) (e : AnchorId × Nat) : NodeId × PatternOpId := ((sourceOf h e.1).getD 0, (p.getInputs op).getD e.2 0)

/-- The pairs a pair leads to, nothing at all where an input is given no edge. -/
def kids (c : NodeId × PatternOpId) : Option (List (NodeId × PatternOpId)) :=
  if Fed originalType h p c then some ((given originalType h p c.1 c.2).map (pairOf h p c.2)) else none

section

variable {originalType h p} {inputs : List PatternOpId} {n : NodeId} {op : PatternOpId} {a : AnchorId} {i j : Nat}

variable {flags : List Bool} {anchors : List AnchorId} {s : List Bool × Search}

theorem choose_spec (hc : choose originalType h p inputs flags n = some j) :
    j < inputs.length ∧ allows originalType h p (inputs.getD j 0) n = true := by
  have hmem := mem_of_find?_eq_some hc
  have hcond := find?_some hc
  simp only [Bool.and_eq_true] at hcond
  exact ⟨mem_range.mp hmem, hcond.1⟩

theorem give_cons_none (hc : (sourceOf h a).bind (choose originalType h p inputs flags) = none) :
    give originalType h p inputs flags (a :: anchors) = give originalType h p inputs flags anchors := by
  simp only [give, hc]

theorem give_cons_some (hc : (sourceOf h a).bind (choose originalType h p inputs flags) = some j) :
    give originalType h p inputs flags (a :: anchors) = (a, j) :: give originalType h p inputs (flags.set j true) anchors := by
  simp only [give, hc]

theorem matchEdge_none (hc : (sourceOf h a).bind (choose originalType h p inputs s.1) = none) :
    matchEdge originalType h p inputs s a = s := by
  unfold matchEdge
  cases hs : sourceOf h a with
  | none => rfl
  | some n =>
    rw [hs, Option.bind_some] at hc
    simp only [hc]

theorem matchEdge_some (hc : (sourceOf h a).bind (choose originalType h p inputs s.1) = some j) :
    matchEdge originalType h p inputs s a = (s.1.set j true, enter s.2 ((sourceOf h a).getD 0, inputs.getD j 0)) := by
  obtain ⟨n, hs, hc⟩ := Option.bind_eq_some_iff.mp hc
  unfold matchEdge
  simp only [hs, hc, Option.getD_some]

theorem of_give : ∀ {flags : List Bool}, (a, j) ∈ give originalType h p inputs flags anchors →
    a ∈ anchors ∧ j < inputs.length ∧ ∃ n, sourceOf h a = some n ∧ allows originalType h p (inputs.getD j 0) n = true := by
  induction anchors with
  | nil => exact fun he => by cases he
  | cons b anchors ih =>
    intro flags he
    cases hc : (sourceOf h b).bind (choose originalType h p inputs flags) with
    | none =>
      rw [give_cons_none hc] at he
      obtain ⟨ha, hrest⟩ := ih he
      exact ⟨mem_cons_of_mem b ha, hrest⟩
    | some k =>
      rw [give_cons_some hc] at he
      rcases mem_cons.mp he with heq | he
      · obtain ⟨rfl, rfl⟩ := Prod.mk.inj heq
        obtain ⟨n, hn, hk⟩ := Option.bind_eq_some_iff.mp hc
        obtain ⟨hlt, hallows⟩ := choose_spec hk
        exact ⟨mem_cons_self, hlt, n, hn, hallows⟩
      · obtain ⟨ha, hrest⟩ := ih he
        exact ⟨mem_cons_of_mem b ha, hrest⟩

/-- Where no edge is listed twice, each is given to one input. -/
theorem give_unique (hnodup : anchors.Nodup) : ∀ {flags : List Bool}, (a, i) ∈ give originalType h p inputs flags anchors →
      (a, j) ∈ give originalType h p inputs flags anchors → i = j := by
  induction anchors with
  | nil => exact fun he => by cases he
  | cons b anchors ih =>
    obtain ⟨hb, hnodup⟩ := nodup_cons.mp hnodup
    intro flags hi hj
    cases hc : (sourceOf h b).bind (choose originalType h p inputs flags) with
    | none =>
      rw [give_cons_none hc] at hi hj
      exact ih hnodup hi hj
    | some k =>
      rw [give_cons_some hc] at hi hj
      rcases mem_cons.mp hi with heq | hi
      · rcases mem_cons.mp hj with heq' | hj
        · rw [(Prod.mk.inj heq).2, (Prod.mk.inj heq').2]
        · rw [(Prod.mk.inj heq).1] at hj
          exact absurd (of_give hj).1 hb
      · rcases mem_cons.mp hj with heq' | hj
        · rw [(Prod.mk.inj heq').1] at hi
          exact absurd (of_give hi).1 hb
        · exact ih hnodup hi hj

/-- The loop over the edges enters the pairs the edges given lead to, and flags the inputs given one. -/
theorem foldl_matchEdge (inputs : List PatternOpId) (anchors : List AnchorId) : ∀ (flags : List Bool) (s : Search),
    flags.length = inputs.length → ∃ flags' : List Bool, flags'.length = inputs.length ∧
      (∀ j < inputs.length, flags'.getD j false = true ↔
        flags.getD j false = true ∨ ∃ e ∈ give originalType h p inputs flags anchors, e.2 = j) ∧
      anchors.foldl (matchEdge originalType h p inputs) (flags, s) =
        (flags', ((give originalType h p inputs flags anchors).map fun e =>
          ((sourceOf h e.1).getD 0, inputs.getD e.2 0)).foldl enter s) := by
  induction anchors with
  | nil => exact fun flags s hlen => ⟨flags, hlen, by simp [give], rfl⟩
  | cons a anchors ih =>
    intro flags s hlen
    rw [foldl_cons]
    cases hc : (sourceOf h a).bind (choose originalType h p inputs flags) with
    | none =>
      rw [give_cons_none hc, matchEdge_none hc]
      exact ih flags s hlen
    | some j =>
      rw [give_cons_some hc, matchEdge_some hc, map_cons, foldl_cons]
      obtain ⟨flags', hlen', hflags, hfold⟩ :=
        ih (flags.set j true) (enter s ((sourceOf h a).getD 0, inputs.getD j 0)) (by simpa using hlen)
      refine ⟨flags', hlen', fun k hk => ?_, hfold⟩
      have hset : (flags.set j true).getD k false = true ↔ k = j ∨ flags.getD k false = true := by
        rw [getD_eq_getElem?_getD, getElem?_set, getD_eq_getElem?_getD]
        by_cases hkj : k = j
        · subst hkj
          simp [hlen, hk]
        · simp [hkj, Ne.symm hkj]
      rw [hflags k hk, hset]
      simp only [mem_cons, exists_eq_or_imp]
      rw [eq_comm (a := k), or_assoc, or_left_comm]

variable (originalType h p n op) in
/-- What the first candidate leads to is entered, when every input is given an edge. -/
theorem matchInputs_spec (s : Search) : match kids originalType h p (n, op) with
    | none => (matchInputs originalType h p n op s).1 = false
    | some l => matchInputs originalType h p n op s = (true, l.foldl enter s) := by
  have hkids : kids originalType h p (n, op) = if Fed originalType h p (n, op)
      then some ((given originalType h p n op).map (pairOf h p op)) else none := rfl
  have hanchors : (Node.getInDataNodes h n).isEmpty = (sortedAnchors h n).isEmpty := by
    unfold Node.getInDataNodes sortedAnchors getInDataAnchors
    rw [isEmpty_map, Bool.eq_iff_iff, List.isEmpty_iff, List.isEmpty_iff]
    rw [← length_eq_zero_iff (l := List.insertionSort _ _), length_insertionSort, length_eq_zero_iff,
      filter_eq_nil_iff, filterMap_eq_nil_iff]
    simp
  unfold matchInputs
  by_cases hempty : p.getInputs op = []
  · have hfed : Fed originalType h p (n, op) := by simp [Fed, hempty]
    have hgiven : given originalType h p n op = [] := by
      refine eq_nil_iff_forall_not_mem.mpr fun e he => ?_
      have hlt := (of_give he).2.1
      simp [hempty] at hlt
    rw [hkids, if_pos hfed, hgiven]
    simp [hempty]
  · have hne : (p.getInputs op).isEmpty = false := by simpa using hempty
    have hpos : 0 < (p.getInputs op).length := length_pos_iff.mpr hempty
    simp only [hne, hanchors]
    by_cases hnone : (sortedAnchors h n).isEmpty
    · have hfed : ¬ Fed originalType h p (n, op) := by
        intro hf
        obtain ⟨e, he, -⟩ := hf 0 hpos
        unfold given at he
        rw [List.isEmpty_iff.mp hnone] at he
        cases he
      rw [hkids, if_neg hfed]
      simp [hnone]
    · obtain ⟨flags, hlen, hflags, hfold⟩ := foldl_matchEdge (p.getInputs op) (sortedAnchors h n)
        (List.replicate (p.getInputs op).length false) s (by simp)
      have hall : matchAllEdges flags = true ↔ Fed originalType h p (n, op) := by
        unfold matchAllEdges Fed
        rw [all_eq_true]
        constructor
        · intro hf j hj
          have hget : flags.getD j false = true := by
            rw [getD_eq_getElem _ _ (hlen ▸ hj)]
            exact hf _ (getElem_mem _)
          rcases (hflags j hj).mp hget with hrep | hgiven
          · simp [getD_eq_getElem?_getD, hj] at hrep
          · exact hgiven
        · intro hf b hb
          obtain ⟨j, hj, rfl⟩ := getElem_of_mem hb
          have hget := (hflags j (hlen ▸ hj)).mpr (.inr (hf j (hlen ▸ hj)))
          rwa [getD_eq_getElem _ _ hj] at hget
      simp only [hnone, hfold]
      rw [hkids]
      by_cases hfed : Fed originalType h p (n, op)
      · rw [if_pos hfed]
        simp only [hall.mpr hfed]
        rfl
      · rw [if_neg hfed]
        exact Bool.eq_false_iff.mpr fun ht => hfed (hall.mp ht)

/-! ## The mapping -/

/-- A mapping holds the pairs marked: each op the nodes of its pairs, in order. -/
structure Holds (m : Mapping) (seen : List (NodeId × PatternOpId)) : Prop where
  keys : (m.map Prod.fst).Nodup
  nodes : ∀ op, nodesOf m op = (seen.filter fun c => c.2 = op).map Prod.fst
  nonempty : ∀ e ∈ m, e.2 ≠ []

variable {m : Mapping} {seen queue : List (NodeId × PatternOpId)} {c : NodeId × PatternOpId}

theorem Holds.mem_nodesOf (hm : Holds m seen) : n ∈ nodesOf m op ↔ (n, op) ∈ seen := by
  rw [hm.nodes, List.mem_map]
  constructor
  · rintro ⟨c, hc, rfl⟩
    obtain ⟨hin, hop⟩ := mem_filter.mp hc
    rwa [← of_decide_eq_true hop]
  · exact fun hc => ⟨(n, op), mem_filter.mpr ⟨hc, decide_eq_true rfl⟩, rfl⟩

theorem Holds.isMatched_iff (hm : Holds m seen) : isMatched c.2 c.1 m = true ↔ c ∈ seen := by
  unfold isMatched
  rw [contains_iff_mem, hm.mem_nodesOf]

theorem nodesOf_pushNode (m : Mapping) (op op' : PatternOpId) (n : NodeId) :
    nodesOf (pushNode m op n) op' = nodesOf m op' ++ if op' = op then [n] else [] := by
  unfold pushNode
  rw [nodesOf, find_assign]
  by_cases hop : op' = op
  · simp [hop]
  · simp [hop, nodesOf]

theorem Holds.push (hm : Holds m seen) (c : NodeId × PatternOpId) : Holds (pushNode m c.2 c.1) (seen ++ [c]) where
  keys := nodup_keys_assign hm.keys _ _
  nodes := fun op => by
    rw [nodesOf_pushNode, hm.nodes, filter_append, map_append]
    by_cases hop : op = c.2
    · simp [hop]
    · simp [hop, Ne.symm hop]
  nonempty := fun e he => by
    rcases mem_of_mem_assign he with rfl | he
    · simp
    · exact hm.nonempty e he

theorem Holds.enter (hm : Holds m seen) (queue : List (NodeId × PatternOpId)) (c : NodeId × PatternOpId) :
    ∃ m', PatternFusion.enter { candidates := queue, mapping := m } c =
      { candidates := (Marking.enter (queue, seen) c).1, mapping := m' } ∧ Holds m' (Marking.enter (queue, seen) c).2 := by
  unfold PatternFusion.enter Marking.enter
  by_cases hc : c ∈ seen
  · rw [if_pos (hm.isMatched_iff.mpr hc), if_pos hc]
    exact ⟨m, rfl, hm⟩
  · rw [if_neg fun h => hc (hm.isMatched_iff.mp h), if_neg hc]
    exact ⟨_, rfl, hm.push c⟩

theorem Holds.foldl_enter (l : List (NodeId × PatternOpId)) : ∀ {m seen}, Holds m seen → ∀ queue,
    ∃ m', l.foldl PatternFusion.enter { candidates := queue, mapping := m } =
      { candidates := (l.foldl Marking.enter (queue, seen)).1, mapping := m' } ∧
        Holds m' (l.foldl Marking.enter (queue, seen)).2 := by
  induction l with
  | nil => exact fun {m seen} hm queue => ⟨m, rfl, hm⟩
  | cons c l ih =>
    intro m seen hm queue
    obtain ⟨m₁, heq, hm₁⟩ := hm.enter queue c
    rw [foldl_cons, foldl_cons, heq]
    exact ih hm₁ _

/-- Entering puts pairs behind the first candidate. -/
theorem foldl_enter_cons (l : List (NodeId × PatternOpId)) : ∀ queue seen : List (NodeId × PatternOpId),
    l.foldl Marking.enter (c :: queue, seen) =
      (c :: (l.foldl Marking.enter (queue, seen)).1, (l.foldl Marking.enter (queue, seen)).2) := by
  induction l with
  | nil => exact fun _ _ => rfl
  | cons d l ih =>
    intro queue seen
    rw [foldl_cons, foldl_cons]
    by_cases hd : d ∈ seen
    · rw [Marking.enter, Marking.enter, if_pos hd, if_pos hd]
      exact ih queue seen
    · rw [Marking.enter, Marking.enter, if_neg hd, if_neg hd]
      exact ih _ _

variable (originalType h p) in
/-- The loop is the search over pairs. -/
theorem matchLoop_spec (fuel : Nat) : ∀ {m seen}, Holds m seen → ∀ queue,
    match Marking.search (kids originalType h p) fuel queue seen with
    | none => matchLoop originalType h p fuel { candidates := queue, mapping := m } = none
    | some none => ∃ m', matchLoop originalType h p fuel { candidates := queue, mapping := m } = some (false, m')
    | some (some out) =>
      ∃ m', matchLoop originalType h p fuel { candidates := queue, mapping := m } = some (true, m') ∧ Holds m' out := by
  induction fuel with
  | zero => exact fun _ _ => rfl
  | succ fuel ih =>
    intro m seen hm queue
    cases queue with
    | nil => exact ⟨m, rfl, hm⟩
    | cons c queue =>
      have hspec := matchInputs_spec originalType h p c.1 c.2 { candidates := c :: queue, mapping := m }
      unfold Marking.search matchLoop
      cases hk : kids originalType h p c with
      | none =>
        rw [hk] at hspec
        simp only at hspec ⊢
        exact ⟨(matchInputs originalType h p c.1 c.2 { candidates := c :: queue, mapping := m }).2.mapping, by simp [hspec]⟩
      | some l =>
        rw [hk] at hspec
        simp only at hspec ⊢
        rw [hspec]
        obtain ⟨m', heq, hm'⟩ := hm.foldl_enter l (c :: queue)
        rw [foldl_enter_cons] at heq hm'
        simp only [heq]
        exact ih hm' _

end

end FusionMatching

end Metadef
