import Mathlib.Data.String.Basic
import Metadef.Theorems.InputsOrder
import Metadef.Theorems.Isolation

/-!
# The range that sorting by name sorts

`TopologicalSortingByName` takes the number of names in the order of inputs, and one more, off the number of source nodes. The
range is inside the stack when the names are fewer, and the range then holds one of the inputs the user named.
-/

namespace Metadef

open Relation Heap ComputeGraph GraphUtils InputsAux SortRuns UnstableSort List

/-- Whether the user named an input. -/
def Heap.isUserInput (h : Heap) (g : GraphId) (n : NodeId) : Bool := (inputsOrderIndex h g n).isSome

/-- The nodes sorting starts from. -/
def Heap.sources (h : Heap) (g : GraphId) : List NodeId := (h.graph g).nodes.filter fun n => waits h n = 0

/-- Every name in the order of inputs is that of a source node. -/
def Heap.NamesSources (h : Heap) (g : GraphId) : Prop :=
  ∀ name ∈ (h.graph g).inputsOrder, ∃ n ∈ h.sources g, Node.getName h n = name

/-- The range sorted is inside the stack, and whatever the sort does to nodes of one name, the inputs the user named keep their
order when all names in the order of inputs are those of source nodes. -/
structure Heap.SortsInside (h : Heap) (g : GraphId) (stackInput : List NodeId) : Prop where
  noWrap : (h.graph g).inputsOrder.length + 1 ≤ stackInput.length
  inside : nonUserInputIndex h g stackInput ≤ stackInput.length
  keeps : h.NamesSources g → ∀ (sort : NameSort h) (sorted : List NodeId), sortStackInput h sort g stackInput = some sorted →
    sorted.filter (h.isUserInput g) = stackInput.filter (h.isUserInput g)

/-- The inputs the user named that are in the range sorted stand by falling names. -/
def Heap.FallingInputs (h : Heap) (g : GraphId) (stackInput : List NodeId) : Prop :=
  ((stackInput.take (nonUserInputIndex h g stackInput)).filter (h.isUserInput g)).Pairwise fun m n =>
    Node.getName h n < Node.getName h m ∨ m = n

namespace SortRangeAux

variable {h : Heap} {g : GraphId} {stackInput : List NodeId}

/-- No more than the stack has is left when not too much is taken off. -/
theorem nonUserInputIndex_le (hlt : (h.graph g).inputsOrder.length < stackInput.length) :
    nonUserInputIndex h g stackInput ≤ stackInput.length := by
  obtain ⟨d, hd⟩ := Nat.exists_eq_add_of_lt hlt
  have hindex : nonUserInputIndex h g stackInput = d % 2 ^ 64 := by
    simp only [nonUserInputIndex, UInt64.toNat_sub, Nat.toUInt64_eq, UInt64.toNat_ofNat', UInt64.reduceToNat]
    omega
  have hle := Nat.mod_le d (2 ^ 64)
  omega

/-- What is behind the range stays, so the inputs the user named keep their order when those in it do. -/
theorem kept_iff_front (sort : NameSort h) (hin : nonUserInputIndex h g stackInput ≤ stackInput.length) :
    (∀ sorted, sortStackInput h sort g stackInput = some sorted →
      sorted.filter (h.isUserInput g) = stackInput.filter (h.isUserInput g)) ↔
    (sort.sort (stackInput.take (nonUserInputIndex h g stackInput))).filter (h.isUserInput g) =
      (stackInput.take (nonUserInputIndex h g stackInput)).filter (h.isUserInput g) := by
  have hsplit := take_append_drop (nonUserInputIndex h g stackInput) stackInput
  have hfilter : stackInput.filter (h.isUserInput g) =
      (stackInput.take (nonUserInputIndex h g stackInput)).filter (h.isUserInput g) ++
        (stackInput.drop (nonUserInputIndex h g stackInput)).filter (h.isUserInput g) := by
    rw [← filter_append, hsplit]
  rw [sortStackInput, if_pos hin]
  constructor
  · intro hall
    have heq := hall _ rfl
    rw [filter_append, hfilter] at heq
    exact append_cancel_right heq
  · rintro heq sorted hs
    obtain rfl := Option.some.inj hs
    rw [filter_append, heq, hfilter]

end SortRangeAux

open SortRangeAux

/-- The range sorted is inside the stack and the inputs the user named keep their order if and only if the names in the order of
inputs are fewer than the source nodes and, where all of them are those of source nodes, the inputs in the range stand by falling
names. -/
theorem sortsInside_iff (h : Heap) (g : GraphId) (runMode : Option Int) (stackInput : List NodeId) (num : InEdgeNum)
    (hs : sortNodes h runMode g = some (stackInput, num)) :
    h.SortsInside g stackInput ↔ (h.graph g).inputsOrder.length < (h.sources g).length ∧
      (h.NamesSources g → h.FallingInputs g stackInput) := by
  have hlen : stackInput.length = (h.sources g).length := by
    rw [sortNodes_stack hs, (ExchangeSort.perm_sort _ _).length_eq, (perm_collected _).length_eq]
    rfl
  constructor
  · rintro ⟨hwrap, hin, hkeeps⟩
    refine ⟨hlen ▸ hwrap, fun hnames => ?_⟩
    exact (kept_iff _ _).mp fun sort => (kept_iff_front sort hin).mp (hkeeps hnames sort)
  · rintro ⟨hlt, hfalling⟩
    rw [← hlen] at hlt
    have hin := nonUserInputIndex_le hlt
    refine ⟨hlt, hin, fun hnames sort => (kept_iff_front sort hin).mpr ?_⟩
    exact (kept_iff _ _).mpr (hfalling hnames) sort

namespace SortRangeWitness

/-- Inputs of a graph are made, one for each name. -/
def inputs (names : List String) : List LinkCall :=
  names.zipIdx.flatMap fun e => [.newOp { opDef := { name := e.1, type := "Data" } }, .newNode e.2]

/-- The graph of such inputs, with an order of inputs. -/
def graphOf (names inputsOrder : List String) : Heap :=
  let h := GraphSteps.addAll 0 ((LinkCall.runAll (inputs names)).getD .empty) (List.range names.length)
  h.setGraph 0 { h.graph 0 with inputsOrder }

theorem sound_graphOf {names inputsOrder : List String} (hc : Run.Each LinkCall.step LinkCall.Careful (inputs names) Heap.empty)
    (hr : (LinkCall.runAll (inputs names)).isSome) : (graphOf names inputsOrder).Sound := by
  obtain ⟨h, hh⟩ := Option.isSome_iff_exists.mp hr
  refine GraphSteps.sound_setGraph (GraphSteps.sound_addAll 0 _ ?_) 0 _
  rw [hh]
  exact sound_runAll (inputs names) h hc hh

theorem sortsInside_of_two : ∃ stackInput num, sortNodes (graphOf ["a", "b"] ["a"]) none 0 = some (stackInput, num) ∧
    (graphOf ["a", "b"] ["a"]).SortsInside 0 stackInput := by
  have hrun : (sortNodes (graphOf ["a", "b"] ["a"]) none 0).map Prod.fst = some [1, 0] := by decide +kernel
  obtain ⟨⟨stackInput, num⟩, hs, rfl⟩ := Option.map_eq_some_iff.mp hrun
  refine ⟨_, num, hs, (sortsInside_iff (graphOf ["a", "b"] ["a"]) 0 none [1, 0] num hs).mpr ⟨by decide +kernel, fun _ => ?_⟩⟩
  have hempty : nonUserInputIndex (graphOf ["a", "b"] ["a"]) 0 [1, 0] = 0 := by decide +kernel
  simp [FallingInputs, hempty]

/-- With an order that names the only input the range wraps. With one that names two of five inputs and asks for the second
name first, the sort turns the two around. -/
theorem sortsInside_false :
    (¬ ∀ (h : Heap) (g : GraphId), h.Sound → (∀ a, ¬ TransGen h.AnyEdge a a) →
      ∀ (runMode : Option Int) (stackInput : List NodeId) (num : InEdgeNum), sortNodes h runMode g = some (stackInput, num) →
        h.SortsInside g stackInput) ∧
    ∃ stackInput num, sortNodes (graphOf ["c", "d", "e", "a", "b"] ["b", "a"]) none 0 = some (stackInput, num) ∧
      (graphOf ["c", "d", "e", "a", "b"] ["b", "a"]).NamesSources 0 ∧
      nonUserInputIndex (graphOf ["c", "d", "e", "a", "b"] ["b", "a"]) 0 stackInput ≤ stackInput.length ∧
      ¬ (graphOf ["c", "d", "e", "a", "b"] ["b", "a"]).SortsInside 0 stackInput := by
  constructor
  · intro hall
    have hs : (graphOf ["a"] ["a"]).Sound := sound_graphOf (by decide +kernel) (by decide +kernel)
    have hrun : (sortNodes (graphOf ["a"] ["a"]) none 0).map Prod.fst = some [0] := by decide +kernel
    obtain ⟨⟨stackInput, num⟩, hsort, rfl⟩ := Option.map_eq_some_iff.mp hrun
    have hin := hall _ 0 hs (IsolateAux.acyclic_of_lt hs (by decide +kernel)) none _ num hsort
    exact absurd hin.noWrap (by decide +kernel)
  · have hrun : (sortNodes (graphOf ["c", "d", "e", "a", "b"] ["b", "a"]) none 0).map Prod.fst = some [3, 4, 2, 1, 0] := by
      decide +kernel
    obtain ⟨⟨stackInput, num⟩, hsort, rfl⟩ := Option.map_eq_some_iff.mp hrun
    have hnames : (graphOf ["c", "d", "e", "a", "b"] ["b", "a"]).NamesSources 0 := by
      unfold NamesSources
      decide +kernel
    refine ⟨_, num, hsort, hnames, by decide +kernel, fun hin => ?_⟩
    have hfalling := (kept_iff _ _).mp fun sort => (kept_iff_front sort hin.inside).mp (hin.keeps hnames sort)
    have hindex : nonUserInputIndex (graphOf ["c", "d", "e", "a", "b"] ["b", "a"]) 0 [3, 4, 2, 1, 0] = 2 := by decide +kernel
    rw [hindex] at hfalling
    have hpair : ¬ ([3, 4].filter ((graphOf ["c", "d", "e", "a", "b"] ["b", "a"]).isUserInput 0)).Pairwise fun m n =>
        Node.getName (graphOf ["c", "d", "e", "a", "b"] ["b", "a"]) n <
          Node.getName (graphOf ["c", "d", "e", "a", "b"] ["b", "a"]) m ∨ m = n := by
      decide +kernel
    exact hpair hfalling

end SortRangeWitness

end Metadef
