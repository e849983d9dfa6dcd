import Metadef.Lib.ExchangeSort
import Metadef.Lib.ListMoves
import Metadef.Lemmas.SortRuns
import Metadef.Theorems.LinkSymmetry
import Metadef.Lemmas.GraphSteps

/-!
# The order of inputs the user asked for

`SortNodes` collects the source nodes and exchanges those the user named. A round of the exchange reads the place of its first
node once, so the nodes end in the order asked for only when no round meets a smaller place behind the largest.
-/

namespace Metadef

open Heap ComputeGraph ExchangeSort SortRuns

/-- The source nodes of a list as they are collected: those that are no data nodes from the last to the first, then the data
nodes from the last to the first. -/
def Heap.collected (h : Heap) (nodes : List NodeId) : List NodeId :=
  (nodes.filter fun n => waits h n = 0 && !Node.isDataType h n).reverse ++
    (nodes.filter fun n => waits h n = 0 && Node.isDataType h n).reverse

/-- The stack holds the source nodes, each once. Along it the places of those named in the order of inputs decrease, so they are
taken from its back in that order, and the others stand as they were collected. -/
structure Heap.InputsOrdered (h : Heap) (g : GraphId) (stack : List NodeId) : Prop where
  sources : ∀ n, n ∈ stack ↔ n ∈ (h.graph g).nodes ∧ waits h n = 0
  once : stack.Nodup
  decreasing : ∀ m n i j, [m, n].Sublist stack → inputsOrderIndex h g m = some i → inputsOrderIndex h g n = some j → j < i
  unnamed : stack.filter (fun n => (inputsOrderIndex h g n).isNone) =
    (h.collected (h.graph g).nodes).filter fun n => (inputsOrderIndex h g n).isNone

/-- Nodes collected with one in between and named: the first before the last in the order of inputs and the last before the one
in between. -/
def Heap.NamedBetween (h : Heap) (g : GraphId) : Prop :=
  ∃ l m n i j k, [l, m, n].Sublist (h.collected (h.graph g).nodes) ∧ inputsOrderIndex h g l = some i ∧
    inputsOrderIndex h g m = some j ∧ inputsOrderIndex h g n = some k ∧ i < k ∧ k < j

namespace InputsAux

variable {h : Heap} {g : GraphId} {nodes pre mid l : List NodeId} {b c : NodeId} {k : Nat}

/-! ## What is collected -/

/-- Entering nodes one after the other collects the sources. -/
theorem collected_foldlM {verify : Bool} (l : List NodeId) : ∀ {P : List NodeId} {s t : SortStack}, s.stack = h.collected P →
      s.specNodeSize = (P.filter fun n => waits h n = 0 && !Node.isDataType h n).length →
      l.foldlM (enterNode h verify) s = some t → t.stack = h.collected (P ++ l) := by
  induction l with
  | nil =>
    intro P s t hs _ ht
    obtain rfl := Option.some.inj ht
    rw [hs, List.append_nil]
  | cons n l ih =>
    intro P s t hs hsize ht
    rw [List.foldlM_cons] at ht
    obtain ⟨u, hu, ht⟩ := Option.bind_eq_some_iff.mp ht
    have happ : P ++ n :: l = P ++ [n] ++ l := by simp
    rw [happ]
    unfold enterNode at hu
    change (if waits h n = 0 then _ else _) = _ at hu
    by_cases hz : waits h n = 0
    · rw [if_pos hz] at hu
      cases htype : Node.isDataType h n with
      | false =>
        rw [htype] at hu
        simp only [Bool.not_false, if_true] at hu
        split at hu
        · cases hu
        · obtain rfl := Option.some.inj hu
          refine ih ?_ ?_ ht
          · simp [Heap.collected, hs, hz, htype]
          · simp [hsize, hz, htype]
      | true =>
        rw [htype] at hu
        simp only [Bool.not_true, Bool.false_eq_true, if_false] at hu
        obtain rfl := Option.some.inj hu
        refine ih ?_ ?_ ht
        · have hlen : s.specNodeSize = (P.filter fun n => waits h n = 0 && !Node.isDataType h n).reverse.length := by
            rw [List.length_reverse, hsize]
          simp only [hs, Heap.collected]
          rw [ListMoves.insertIdx_split (by simp [hsize]), hlen, List.take_left, List.drop_left]
          simp [hz, htype]
        · simp [hsize, hz, htype]
    · rw [if_neg hz] at hu
      obtain rfl := Option.some.inj hu
      refine ih ?_ ?_ ht
      · simp [hs, Heap.collected, hz]
      · simp [hsize, hz]

/-! ## The exchange by positions -/

theorem swapAt_middle (pre mid l : List NodeId) (b c : NodeId) :
    swapAt (pre ++ c :: (mid ++ b :: l)) pre.length (pre.length + 1 + mid.length) = pre ++ b :: (mid ++ c :: l) := by
  have hj : (pre ++ c :: (mid ++ b :: l))[pre.length + 1 + mid.length]? = some b := by
    rw [List.getElem?_append_right (by omega)]
    have hsub : pre.length + 1 + mid.length - pre.length = mid.length + 1 := by omega
    simp [hsub]
  have hset : ∀ x y, (pre ++ x :: (mid ++ b :: l)).set (pre.length + 1 + mid.length) y = pre ++ x :: (mid ++ y :: l) := by
    intro x y
    rw [List.set_append_right _ _ (by omega)]
    have hsub : pre.length + 1 + mid.length - pre.length = mid.length + 1 := by omega
    simp [hsub]
  simp [swapAt, hj, hset]

/-- The inner loop is one round over the nodes behind a place. -/
theorem swapLater_foldl (pre l : List NodeId) : ∀ (mid : List NodeId) (c : NodeId),
    (List.range' (pre.length + 1 + mid.length) l.length).foldl (swapLater h g pre.length k) (pre ++ c :: (mid ++ l)) =
      pre ++ (sweep (inputsOrderIndex h g) k c l).1 :: (mid ++ (sweep (inputsOrderIndex h g) k c l).2) := by
  induction l with
  | nil =>
    intro mid c
    rfl
  | cons b l ih =>
    intro mid c
    have hj : (pre ++ c :: (mid ++ b :: l))[pre.length + 1 + mid.length]? = some b := by
      rw [List.getElem?_append_right (by omega)]
      have hsub : pre.length + 1 + mid.length - pre.length = mid.length + 1 := by omega
      simp [hsub]
    have hnext : ∀ x y, (List.range' (pre.length + 1 + mid.length + 1) l.length).foldl (swapLater h g pre.length k)
        (pre ++ x :: (mid ++ y :: l)) = pre ++ (sweep (inputsOrderIndex h g) k x l).1 ::
          (mid ++ y :: (sweep (inputsOrderIndex h g) k x l).2) := by
      intro x y
      have hih := ih (mid ++ [y]) x
      simpa [Nat.add_assoc] using hih
    rw [List.length_cons, List.range'_succ, List.foldl_cons]
    cases hb : inputsOrderIndex h g b with
    | none => simp [swapLater, hj, hb, sweep, hnext]
    | some kb =>
      by_cases hlt : k < kb
      · simp [swapLater, hj, hb, sweep, hlt, swapAt_middle, hnext]
      · simp [swapLater, hj, hb, sweep, hlt, hnext]

/-- The outer loop sorts by exchange. -/
theorem orderInputsAt_foldl (l : List NodeId) : ∀ pre : List NodeId,
    (List.range' pre.length l.length).foldl (orderInputsAt h g) (pre ++ l) = pre ++ sort (inputsOrderIndex h g) l := by
  induction l using sort.induct (inputsOrderIndex h g) with
  | case1 =>
    intro pre
    simp [sort]
  | case2 a l hk ih =>
    intro pre
    have hround : orderInputsAt h g (pre ++ a :: l) pre.length = pre ++ a :: l := by
      simp [orderInputsAt, hk]
    rw [List.length_cons, List.range'_succ, List.foldl_cons, hround, sort_none hk]
    simpa using ih (pre ++ [a])
  | case3 a l k hk ih =>
    intro pre
    have hround : orderInputsAt h g (pre ++ a :: l) pre.length =
        pre ++ (sweep (inputsOrderIndex h g) k a l).1 :: (sweep (inputsOrderIndex h g) k a l).2 := by
      have hlen : pre.length + (l.length + 1) - (pre.length + 1) = l.length := by omega
      have hfold := swapLater_foldl (h := h) (g := g) (k := k) pre l [] a
      simpa [orderInputsAt, hk, hlen] using hfold
    rw [List.length_cons, List.range'_succ, List.foldl_cons, hround, sort_some hk]
    have hih := ih (pre ++ [(sweep (inputsOrderIndex h g) k a l).1])
    simpa [sweep_length] using hih

/-- The stack is what is collected, sorted by exchange. -/
theorem sortNodes_stack {runMode : Option Int} {stack : List NodeId} {num : InEdgeNum}
    (hs : sortNodes h runMode g = some (stack, num)) :
    stack = sort (inputsOrderIndex h g) (h.collected (h.graph g).nodes) := by
  unfold sortNodes at hs
  obtain ⟨s, hfold, heq⟩ := Option.map_eq_some_iff.mp hs
  have hstack := collected_foldlM (h.graph g).nodes (P := []) rfl rfl hfold
  rw [List.nil_append] at hstack
  obtain ⟨rfl, -⟩ := Prod.mk.inj heq
  have hsort := orderInputsAt_foldl (h := h) (g := g) s.stack []
  rw [← hstack]
  simpa [List.range_eq_range'] using hsort

/-! ## Places in the order of inputs -/

/-- Nodes of different names have different places. -/
theorem nodup_places (hl : (l.map fun n => Node.getName h n).Nodup) : (l.filterMap (inputsOrderIndex h g)).Nodup := by
  refine List.pairwise_filterMap.mpr ((List.pairwise_map.mp hl).imp fun {m n} hne i hi j hj hij => hne ?_)
  subst hij
  obtain ⟨hlt, hm, _⟩ := List.findIdx?_eq_some_iff_getElem.mp hi
  obtain ⟨_, hn, _⟩ := List.findIdx?_eq_some_iff_getElem.mp hj
  exact (of_decide_eq_true hm).symm.trans (of_decide_eq_true hn)

theorem decreasing_iff (stack : List NodeId) : (∀ m n i j, [m, n].Sublist stack → inputsOrderIndex h g m = some i →
    inputsOrderIndex h g n = some j → j < i) ↔
      (stack.filterMap (inputsOrderIndex h g)).Pairwise fun i j => j < i := by
  rw [List.pairwise_filterMap, List.pairwise_iff_forall_sublist]
  exact ⟨fun hall m n hs i hi j hj => hall m n i j hs hi hj, fun hall m n i j hs hi hj => hall hs i hi j hj⟩

/-- What stands in the values of a list stands there for items of the list. -/
theorem sublist_of_values {α β : Type} {f : α → Option β} {l : List α} {s : List β} (hs : s.Sublist (l.filterMap f)) :
    ∃ t : List α, t.Sublist l ∧ t.map f = s.map some := by
  obtain ⟨l', hl', rfl⟩ := List.sublist_filterMap_iff.mp hs
  refine ⟨l'.filter fun x => (f x).isSome, List.filter_sublist.trans hl', ?_⟩
  clear hs hl'
  induction l' with
  | nil => rfl
  | cons x l' ih =>
    cases hx : f x with
    | none => simp [hx, ih]
    | some y => simp [hx, ih]

theorem namedBetween_iff : h.NamedBetween g ↔
    ¬ NoneBetween ((h.collected (h.graph g).nodes).filterMap (inputsOrderIndex h g)) := by
  unfold Heap.NamedBetween NoneBetween
  push Not
  constructor
  · rintro ⟨l, m, n, i, j, k, hs, hi, hj, hk, hik, hkj⟩
    refine ⟨i, j, k, ?_, hik, hkj⟩
    have hmap := hs.filterMap (inputsOrderIndex h g)
    simpa [hi, hj, hk] using hmap
  · rintro ⟨i, j, k, hs, hik, hkj⟩
    obtain ⟨t, ht, hmap⟩ := sublist_of_values hs
    obtain ⟨l, t, rfl, hi, hmap⟩ := List.map_eq_cons_iff.mp hmap
    obtain ⟨m, t, rfl, hj, hmap⟩ := List.map_eq_cons_iff.mp hmap
    obtain ⟨n, t, rfl, hk, hmap⟩ := List.map_eq_cons_iff.mp hmap
    obtain rfl := List.map_eq_nil_iff.mp hmap
    exact ⟨l, m, n, i, j, k, ht, hi, hj, hk, hik, hkj⟩

theorem perm_collected (nodes : List NodeId) : (h.collected nodes).Perm (nodes.filter fun n => waits h n = 0) := by
  unfold Heap.collected
  refine ((List.reverse_perm _).append (List.reverse_perm _)).trans ?_
  have hsplit := List.filter_append_perm (fun n => !Node.isDataType h n) (nodes.filter fun n => waits h n = 0)
  simpa [List.filter_filter, Bool.and_comm] using hsplit

end InputsAux

open InputsAux

/-- In a graph whose nodes have distinct names the source nodes end on the stack in the order asked for if and only if none are
collected with one in between. -/
theorem sortNodes_ordered_iff (h : Heap) (g : GraphId) (hnames : ((h.graph g).nodes.map fun n => Node.getName h n).Nodup)
    (runMode : Option Int) (stack : List NodeId) (num : InEdgeNum) (hs : sortNodes h runMode g = some (stack, num)) :
    h.InputsOrdered g stack ↔ ¬ h.NamedBetween g := by
  have hstack := sortNodes_stack hs
  have hcollected := perm_collected (h := h) (h.graph g).nodes
  have hperm : stack.Perm ((h.graph g).nodes.filter fun n => waits h n = 0) := hstack ▸ (perm_sort _ _).trans hcollected
  have hkeys : ((h.collected (h.graph g).nodes).map fun n => Node.getName h n).Nodup := by
    refine (hcollected.map _).nodup_iff.mpr (hnames.sublist ?_)
    exact List.filter_sublist.map _
  have horder : (stack.filterMap (inputsOrderIndex h g)).Pairwise (fun i j => j < i) ↔ ¬ h.NamedBetween g := by
    rw [hstack, sort_keys, sort_decreasing_iff _ (nodup_places hkeys), namedBetween_iff, not_not]
  rw [← horder, ← decreasing_iff]
  refine ⟨fun ho => ho.decreasing, fun hd => ⟨fun n => ?_, ?_, hd, ?_⟩⟩
  · rw [hperm.mem_iff, List.mem_filter, decide_eq_true_eq]
  · exact hperm.nodup_iff.mpr (hnames.of_map.filter _)
  · rw [hstack, sort_unkeyed]

namespace InputsOrderWitness

/-- Three inputs of a graph are made. -/
def inputs : List LinkCall :=
  [.newOp { opDef := { name := "a", type := "Data" } }, .newNode 0, .newOp { opDef := { name := "b", type := "Data" } },
    .newNode 1, .newOp { opDef := { name := "c", type := "Data" } }, .newNode 2]

/-- The graph of the inputs listed in an order, where the user asked for that of their names. -/
def graphOf (nodes : List NodeId) : Heap :=
  let h := GraphSteps.addAll 0 ((LinkCall.runAll inputs).getD .empty) nodes
  h.setGraph 0 { h.graph 0 with inputsOrder := ["a", "b", "c"] }

theorem sortNodes_ordered_abc : ∃ stack num, sortNodes (graphOf [0, 1, 2]) none 0 = some (stack, num) ∧
    ((graphOf [0, 1, 2]).InputsOrdered 0 stack ↔ ¬ (graphOf [0, 1, 2]).NamedBetween 0) := by
  have hrun : (sortNodes (graphOf [0, 1, 2]) none 0).isSome = true := by decide +kernel
  obtain ⟨⟨stack, num⟩, hs⟩ := Option.isSome_iff_exists.mp hrun
  exact ⟨stack, num, hs, sortNodes_ordered_iff (graphOf [0, 1, 2]) 0 (by decide +kernel) none stack num hs⟩

/-- Collected with the first at the bottom of the stack, the third above it and the second on top, the third ends on top of the
second. -/
theorem sortNodes_ordered_false :
    ¬ ∀ (h : Heap) (g : GraphId), ((h.graph g).nodes.map fun n => Node.getName h n).Nodup → (h.graph g).inputsOrder.Nodup →
      ∀ (runMode : Option Int) (stack : List NodeId) (num : InEdgeNum), sortNodes h runMode g = some (stack, num) →
        h.InputsOrdered g stack := by
  intro hall
  have hrun : (sortNodes (graphOf [1, 2, 0]) none 0).map Prod.fst = some [1, 2, 0] := by decide +kernel
  obtain ⟨⟨stack, num⟩, hs, hstack⟩ := Option.map_eq_some_iff.mp hrun
  have ho := hall (graphOf [1, 2, 0]) 0 (by decide +kernel) (by decide +kernel) none stack num hs
  obtain rfl : stack = [1, 2, 0] := hstack
  exact absurd (ho.decreasing 1 2 1 2 (by decide) (by decide +kernel) (by decide +kernel)) (by decide)

end InputsOrderWitness

end Metadef
