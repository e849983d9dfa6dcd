import Metadef.Lemmas.EdgeCounts

/-!
# The loops of sorting as runs that count down

`SortNodes` starts the loops at the nodes that wait for nothing. A round of the depth-first loop is a visit that drops
nothing; a round of the breadth-first loop drops a node when another of its name is left without inputs by the same visit.
-/

namespace Metadef

open Heap ComputeGraph OrderedMap

namespace SortRuns

variable (h : Heap)

/-- The number in the counter of a node. -/
def waits (n : NodeId) : Nat := getInEdgeSize h n % uint32Size

/-- The nodes a visit walks over. -/
def targets (n : NodeId) : List NodeId := (outBlocks h n).flatten

theorem waits_lt (n : NodeId) : waits h n < uint32Size := Nat.mod_lt _ (by decide)

/-! ## The start -/

/-- What `SortNodes` has after some nodes: their counters, and those of them that wait for nothing. -/
structure Entered (P : List NodeId) (s : SortStack) : Prop where
  counters : s.mapInEdgeNum = Kahn.countersOf uint32Size P (waits h) fun _ => 0
  stack : s.stack.Perm (P.filter fun n => waits h n = 0)
  spec : s.specNodeSize ≤ s.stack.length

variable {h}

variable {P stack : List NodeId} {verify reverse : Bool} {n : NodeId} {runMode : Option Int}
  {g : GraphId} {s t : BfsState}

theorem entered_counters {s : SortStack} (he : Entered h P s) (n : NodeId) : Function.update s.mapInEdgeNum n (some (waits h n)) =
      Kahn.countersOf uint32Size (P ++ [n]) (waits h) fun _ => 0 := by
  funext m
  rw [he.counters, Function.update_apply]
  by_cases hm : m = n
  · subst hm
    simp [Kahn.countersOf, Kahn.remaining]
  · simp [Kahn.countersOf, hm]

/-- Entering a node that waits for something leaves the stack, and one that waits for nothing joins it. -/
theorem entered_enterNode {s t : SortStack} (he : Entered h P s)
    (hs : enterNode h verify s n = some t) : Entered h (P ++ [n]) t := by
  have hcounters := entered_counters he n
  have hfilter : (P ++ [n]).filter (fun n => waits h n = 0) =
      P.filter (fun n => waits h n = 0) ++ if waits h n = 0 then [n] else [] := by
    rw [List.filter_append]
    congr 1
    by_cases hz : waits h n = 0 <;> simp [hz]
  unfold enterNode at hs
  change (if waits h n = 0 then _ else _) = _ at hs
  by_cases hz : waits h n = 0
  · rw [if_pos hz] at hs hfilter
    have hpush : (n :: s.stack).Perm ((P ++ [n]).filter fun n => waits h n = 0) := by
      rw [hfilter]
      exact (he.stack.cons n).trans (List.perm_append_singleton n _).symm
    cases htype : Node.isDataType h n with
    | false =>
      rw [htype] at hs
      simp only [Bool.not_false, if_true] at hs
      split at hs
      · cases hs
      · obtain rfl := Option.some.inj hs
        exact ⟨hcounters, hpush, Nat.succ_le_succ he.spec⟩
    | true =>
      rw [htype] at hs
      simp only [Bool.not_true, Bool.false_eq_true, if_false] at hs
      obtain rfl := Option.some.inj hs
      refine ⟨hcounters, (List.perm_insertIdx n s.stack he.spec).trans hpush, ?_⟩
      change s.specNodeSize ≤ (s.stack.insertIdx s.specNodeSize n).length
      rw [List.length_insertIdx_of_le_length he.spec]
      exact Nat.le_succ_of_le he.spec
  · rw [if_neg hz] at hs hfilter
    obtain rfl := Option.some.inj hs
    rw [List.append_nil] at hfilter
    exact ⟨hcounters, hfilter ▸ he.stack, he.spec⟩

theorem entered_foldlM (l : List NodeId) :
    ∀ {P : List NodeId} {s t : SortStack}, Entered h P s → l.foldlM (enterNode h verify) s = some t →
      Entered h (P ++ l) t := by
  induction l with
  | nil =>
    intro P s t he hs
    obtain rfl := Option.some.inj hs
    rwa [List.append_nil]
  | cons n l ih =>
    intro P s t he hs
    rw [List.foldlM_cons] at hs
    obtain ⟨u, hu, ht⟩ := Option.bind_eq_some_iff.mp hs
    have := ih (entered_enterNode he hu) ht
    rwa [List.append_assoc] at this

/-- Swapping two items. -/
theorem swapAt_perm (l : List NodeId) (i j : Nat) : (swapAt l i j).Perm l := by
  unfold swapAt
  split
  · rename_i a b ha hb
    obtain ⟨hi, hia⟩ := List.getElem?_eq_some_iff.mp ha
    obtain ⟨hj, hjb⟩ := List.getElem?_eq_some_iff.mp hb
    refine List.perm_iff_count.mpr fun x => ?_
    have hj' : j < (l.set i b).length := by rwa [List.length_set]
    have hval : (l.set i b)[j] = b := by
      rw [List.getElem_set]
      split
      · rfl
      · exact hjb
    have hpos : a = x → 0 < l.count x := fun e => List.count_pos_iff.mpr (e ▸ hia ▸ List.getElem_mem hi)
    rw [List.count_set hj', List.count_set hi, hval, hia]
    simp only [beq_iff_eq]
    by_cases hax : a = x
    · have := hpos hax
      split <;> simp <;> omega
    · simp [hax]
  · exact .refl _

theorem swapLater_perm (g : GraphId) (i inxI : Nat) (stack : List NodeId) (j : Nat) :
    (swapLater h g i inxI stack j).Perm stack := by
  unfold swapLater
  split
  · exact .refl _
  · split
    · exact swapAt_perm stack i j
    · exact .refl _

/-- A fold whose steps permute a list permutes it. -/
theorem foldl_perm {β : Type} {f : List NodeId → β → List NodeId} (hf : ∀ l b, (f l b).Perm l) (bs : List β) :
    ∀ l, (bs.foldl f l).Perm l := by
  induction bs with
  | nil => exact fun l => .refl l
  | cons b bs ih => exact fun l => (ih (f l b)).trans (hf l b)

theorem orderInputsAt_perm (g : GraphId) (stack : List NodeId) (i : Nat) : (orderInputsAt h g stack i).Perm stack := by
  unfold orderInputsAt
  split
  · exact .refl _
  · exact foldl_perm (swapLater_perm g i _) _ stack

/-- `SortNodes` finds the nodes that wait for nothing, and the counters of all nodes. -/
theorem sortNodes_spec {num : InEdgeNum} (hs : sortNodes h runMode g = some (stack, num)) :
    stack.Perm ((h.graph g).nodes.filter fun n => waits h n = 0) ∧
      num = Kahn.countersOf uint32Size (h.graph g).nodes (waits h) fun _ => 0 := by
  unfold sortNodes at hs
  obtain ⟨s, hfold, heq⟩ := Option.map_eq_some_iff.mp hs
  have hstart : Entered h [] {} := ⟨by funext n; simp [Kahn.countersOf], .refl _, Nat.le_refl _⟩
  have he := entered_foldlM (h.graph g).nodes hstart hfold
  rw [List.nil_append] at he
  obtain ⟨rfl, rfl⟩ := Prod.mk.inj heq
  exact ⟨(foldl_perm (orderInputsAt_perm g) _ s.stack).trans he.stack, he.counters⟩

/-- No node that waits for nothing is isolated, where that is asked for. -/
def NoIsolated (h : Heap) (runMode : Option Int) (g : GraphId) : Prop :=
  verifyIsolated runMode = true → ∀ n ∈ (h.graph g).nodes, waits h n = 0 →
    Node.isDataType h n = true ∨ getOutEdgeSize h n ≠ 0

/-- Then a node is entered as when it is not asked for. -/
theorem enterNode_eq (hn : verify = true → waits h n = 0 → Node.isDataType h n = true ∨ getOutEdgeSize h n ≠ 0) (s : SortStack) :
    enterNode h verify s n = enterNode h false s n := by
  cases verify with
  | false => rfl
  | true =>
    unfold enterNode
    change (if waits h n = 0 then _ else _) = if waits h n = 0 then _ else _
    by_cases hz : waits h n = 0
    · rcases hn rfl hz with htype | hout
      · simp [hz, htype]
      · simp [hz, hout]
    · simp [hz]

/-- Without the check nothing fails. -/
theorem foldlM_enterNode_false (l : List NodeId) : ∀ s, ∃ t, l.foldlM (enterNode h false) s = some t := by
  induction l with
  | nil => exact fun s => ⟨s, rfl⟩
  | cons n l ih =>
    intro s
    obtain ⟨t, ht⟩ : ∃ t, enterNode h false s n = some t := by
      unfold enterNode
      change ∃ t, (if waits h n = 0 then _ else _) = some t
      split
      · split <;> simp
      · simp
    obtain ⟨u, hu⟩ := ih t
    exact ⟨u, by rw [List.foldlM_cons, ht]; exact hu⟩

/-- Where no node is isolated, the start is the same in every run mode. -/
theorem sortNodes_eq (hn : NoIsolated h runMode g) : sortNodes h runMode g = sortNodes h none g := by
  unfold sortNodes
  congr 1
  have hall : ∀ l : List NodeId, (∀ n ∈ l, n ∈ (h.graph g).nodes) → ∀ s,
      l.foldlM (enterNode h (verifyIsolated runMode)) s = l.foldlM (enterNode h (verifyIsolated none)) s := by
    intro l
    induction l with
    | nil => exact fun _ _ => rfl
    | cons n l ih =>
      intro hsub s
      have hnode := enterNode_eq (fun hv hz => hn hv n (hsub n List.mem_cons_self) hz) s
      rw [List.foldlM_cons, List.foldlM_cons, hnode]
      exact congrArg _ (funext fun t => ih (fun m hm => hsub m (List.mem_cons_of_mem n hm)) t)
  exact hall _ (fun _ h => h) _

theorem sortNodes_none (g : GraphId) : ∃ stack num, sortNodes h none g = some (stack, num) := by
  obtain ⟨t, ht⟩ := foldlM_enterNode_false (h := h) (h.graph g).nodes {}
  exact ⟨_, _, by unfold sortNodes; rw [show verifyIsolated none = false from rfl, ht]; rfl⟩

/-! ## Depth-first rounds -/

/-- The pushes of a visit, block by block, are those of one release. -/
theorem foldl_pushBlock (reverse : Bool) (blocks : List (List NodeId)) : ∀ (num : InEdgeNum) (stack : List NodeId),
      (blocks.foldl (pushBlock reverse) (num, stack)).1 = (countDown num blocks.flatten).1 ∧
      (blocks.foldl (pushBlock reverse) (num, stack)).2.Perm (stack ++ (countDown num blocks.flatten).2) := by
  induction blocks with
  | nil =>
    intro num stack
    exact ⟨rfl, by simp [countDown, Kahn.release]⟩
  | cons b blocks ih =>
    intro num stack
    obtain ⟨h1, h2⟩ := ih (countDown num b).1 (stackPush reverse stack (countDown num b).2)
    have hpush : (stackPush reverse stack (countDown num b).2).Perm (stack ++ (countDown num b).2) := by
      unfold stackPush
      split
      · exact (List.reverse_perm _).append_left stack
      · exact .refl _
    have hrelease := Kahn.release_append uint32Size num b blocks.flatten
    rw [List.foldl_cons, List.flatten_cons]
    unfold countDown at *
    rw [hrelease]
    refine ⟨h1, h2.trans ?_⟩
    rw [← List.append_assoc]
    exact hpush.append_right _

/-- A round of the depth-first loop visits a node and drops nothing. -/
theorem dfsVisit_full {s t : Kahn.State NodeId} (hs : dfsVisit h reverse s = some t) :
    Kahn.FullVisit uint32Size (targets h) s t := by
  unfold dfsVisit at hs
  cases hlast : s.pending.getLast? with
  | none =>
    rw [hlast] at hs
    cases hs
  | some node =>
    rw [hlast] at hs
    obtain rfl := Option.some.inj hs
    obtain ⟨h1, h2⟩ := foldl_pushBlock reverse (outBlocks h node) s.counters s.pending.dropLast
    refine ⟨node, s.pending.dropLast, s, _, ?_, rfl, h1, h2⟩
    have hsplit : s.pending.dropLast ++ [node] = s.pending := List.dropLast_append_getLast? node hlast
    rw [← hsplit, List.dropLast_concat]
    exact List.perm_append_singleton node _

theorem dfsVisit_none {s : Kahn.State NodeId} (hs : dfsVisit h reverse s = none) : s.pending = [] := by
  unfold dfsVisit at hs
  cases hlast : s.pending.getLast? with
  | none => exact List.getLast?_eq_none_iff.mp hlast
  | some node => simp [hlast] at hs

/-! ## Breadth-first rounds -/

/-- The state of the breadth-first loop as one of a run that counts down. -/
def toState (s : BfsState) : Kahn.State NodeId := ⟨s.nodeVec, s.stackInput ++ s.stack, s.mapInEdgeNum⟩

/-- The nodes a visit leaves without inputs. -/
def released (h : Heap) (s : BfsState) (node : NodeId) : List NodeId := (countDown s.mapInEdgeNum (targets h node)).2

/-- The round in which a multimap stands in for the map, so that nothing is dropped. -/
def losslessVisit (h : Heap) (s : BfsState) : Option BfsState :=
  match s.pop with
  | none => none
  | some (node, stack, stackInput) =>
    let r := countDown s.mapInEdgeNum (targets h node)
    some { nodeVec := s.nodeVec ++ [node]
           stack := (OrderedMap.placeAll (Node.getName h) [] r.2).foldl (fun stack e => e.2 :: stack) stack
           stackInput
           mapInEdgeNum := r.1 }

/-- No visit from a state leaves two nodes of one name without inputs. -/
def NamesApartAt (h : Heap) (s : BfsState) : Prop :=
  ∀ node stack stackInput, s.pop = some (node, stack, stackInput) → ((released h s node).map (Node.getName h)).Nodup

theorem pop_perm {node : NodeId} {stackInput : List NodeId}
    (hp : s.pop = some (node, stack, stackInput)) : (s.stackInput ++ s.stack).Perm (node :: (stackInput ++ stack)) := by
  unfold BfsState.pop at hp
  cases hlast : s.stack.getLast? with
  | some m =>
    rw [hlast] at hp
    obtain ⟨rfl, rfl, rfl⟩ : m = node ∧ s.stack.dropLast = stack ∧ s.stackInput = stackInput := by simpa using hp
    have hsplit : s.stack.dropLast ++ [m] = s.stack := List.dropLast_append_getLast? m hlast
    rw [← hsplit, List.dropLast_concat, ← List.append_assoc]
    exact List.perm_append_singleton m _
  | none =>
    rw [hlast] at hp
    obtain ⟨m, hm, heq⟩ := Option.map_eq_some_iff.mp hp
    obtain ⟨rfl, rfl, rfl⟩ : m = node ∧ s.stack = stack ∧ s.stackInput.dropLast = stackInput := by simpa using heq
    have hsplit : s.stackInput.dropLast ++ [m] = s.stackInput := List.dropLast_append_getLast? m hm
    have hempty : s.stack = [] := List.getLast?_eq_none_iff.mp hlast
    rw [← hsplit, List.dropLast_concat, hempty, List.append_nil, List.append_nil]
    exact List.perm_append_singleton m _

theorem pop_none (hp : s.pop = none) : s.stackInput ++ s.stack = [] := by
  unfold BfsState.pop at hp
  cases hlast : s.stack.getLast? with
  | some m => simp [hlast] at hp
  | none =>
    rw [hlast] at hp
    have h1 : s.stack = [] := List.getLast?_eq_none_iff.mp hlast
    have h2 : s.stackInput = [] := List.getLast?_eq_none_iff.mp (Option.map_eq_none_iff.mp hp)
    rw [h1, h2]
    rfl

theorem foldl_pushFront (m : OrderedMap String NodeId) (stack : List NodeId) :
    (m.foldl (fun stack e => e.2 :: stack) stack).Perm (stack ++ m.map Prod.snd) := by
  induction m generalizing stack with
  | nil => simp
  | cons e m ih =>
    refine (ih (e.2 :: stack)).trans ?_
    rw [List.map_cons, List.cons_append]
    exact List.perm_middle.symm

/-- A round of the breadth-first loop visits a node and keeps what the map keeps. -/
theorem bfsVisit_cases (hs : bfsVisit h s = some t) : ∃ node stack stackInput, s.pop = some (node, stack, stackInput) ∧
      t.nodeVec = s.nodeVec ++ [node] ∧ t.mapInEdgeNum = (countDown s.mapInEdgeNum (targets h node)).1 ∧
      (t.stackInput ++ t.stack).Perm (stackInput ++ stack ++
        (OrderedMap.insertAll (Node.getName h) [] (released h s node)).map Prod.snd) := by
  unfold bfsVisit at hs
  cases hp : s.pop with
  | none =>
    rw [hp] at hs
    cases hs
  | some p =>
    obtain ⟨node, stack, stackInput⟩ := p
    rw [hp] at hs
    obtain rfl := Option.some.inj hs
    refine ⟨node, stack, stackInput, rfl, rfl, rfl, ?_⟩
    rw [List.append_assoc]
    exact (foldl_pushFront _ stack).append_left stackInput

theorem bfsVisit_none (hs : bfsVisit h s = none) : (toState s).pending = [] := by
  unfold bfsVisit at hs
  cases hp : s.pop with
  | none => exact pop_none hp
  | some p => simp [hp] at hs

/-- A round of the breadth-first loop is a visit. -/
theorem bfsVisit_visit (hs : bfsVisit h s = some t) : Kahn.Visit uint32Size (targets h) (toState s) (toState t) := by
  obtain ⟨node, stack, stackInput, hp, hvec, hnum, hperm⟩ := bfsVisit_cases hs
  have hsub := insertAll_subperm (Node.getName h) (released h s node) []
  rw [List.map_nil, List.nil_append] at hsub
  exact ⟨node, stackInput ++ stack, _, _, pop_perm hp, hvec, hnum,
    hperm.subperm.trans ((List.subperm_append_left _).mpr hsub)⟩

/-- Where names are apart, it drops nothing and is the round over a multimap. -/
theorem bfsVisit_lossless (ha : NamesApartAt h s) : bfsVisit h s = losslessVisit h s := by
  unfold bfsVisit losslessVisit collectBreadthOutNode
  cases hp : s.pop with
  | none => rfl
  | some p =>
    obtain ⟨node, stack, stackInput⟩ := p
    have heq := insertAll_eq_placeAll (m := []) (l := released h s node) (ha node stack stackInput hp)
    change OrderedMap.insertAll _ [] (countDown s.mapInEdgeNum (outBlocks h node).flatten).2 = _ at heq
    simp only [heq]
    rfl

theorem losslessVisit_full (hs : losslessVisit h s = some t) : Kahn.FullVisit uint32Size (targets h) (toState s) (toState t) := by
  unfold losslessVisit at hs
  cases hp : s.pop with
  | none =>
    rw [hp] at hs
    cases hs
  | some p =>
    obtain ⟨node, stack, stackInput⟩ := p
    rw [hp] at hs
    obtain rfl := Option.some.inj hs
    refine ⟨node, stackInput ++ stack, _, _, pop_perm hp, rfl, rfl, ?_⟩
    have hplace := placeAll_perm (Node.getName h) (released h s node) []
    rw [List.map_nil, List.nil_append] at hplace
    change (stackInput ++ _).Perm _
    rw [List.append_assoc]
    exact ((foldl_pushFront _ stack).trans (hplace.append_left stack)).append_left stackInput

end SortRuns

end Metadef
