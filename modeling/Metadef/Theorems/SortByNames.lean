import Metadef.Theorems.SortRange
import Metadef.Lemmas.SameGraphs

/-!
# Sorting by name and the order of construction

Two graphs may have the same nodes and edges and differ in the order the nodes were added in and the edges linked in.
`TopologicalSortingByName` takes ready nodes in the order of their names, so what it finds depends on the nodes it starts from
alone, and on these as far as the end of their stack is left unsorted.
-/

namespace Metadef

open List Option OrderedMap Function

open Heap ComputeGraph GraphUtils InputsAux SortRuns SortOrder EdgeCounts SameGraphs

/-- The stack `SortNodes` makes of the source nodes. -/
def Heap.inputStack (h : Heap) (g : GraphId) : List NodeId :=
  ExchangeSort.sort (inputsOrderIndex h g) (h.collected (h.graph g).nodes)

/-- The end of that stack which is not sorted by name. -/
def Heap.unsortedInputs (h : Heap) (g : GraphId) : List NodeId :=
  (h.inputStack g).drop (nonUserInputIndex h g (h.inputStack g))

/-- The range that is sorted is inside the stack, and behind it the stacks of two graphs have nodes of the same names. -/
def Heap.SameEnds (h : Heap) (g : GraphId) (h' : Heap) (g' : GraphId) : Prop :=
  nonUserInputIndex h g (h.inputStack g) ≤ (h.inputStack g).length ∧
    (h.unsortedInputs g).map (Node.getName h) = (h'.unsortedInputs g').map (Node.getName h')

/-- Whatever the sort does to nodes of one name, two graphs are sorted with the same status, and nodes of the same names are
appended in the same order. -/
def Heap.SortedAlike (h : Heap) (g : GraphId) (h' : Heap) (g' : GraphId) (runMode : Option Int) : Prop :=
  ∀ (sort : NameSort h) (sort' : NameSort h') (fuel : Nat) (vec vec' : List NodeId), (h.graph g).nodes.length < fuel →
    vec.map (Node.getName h) = vec'.map (Node.getName h') →
    ∃ ok found found', topologicalSortingByName h sort fuel runMode g vec = some (ok, found) ∧
      topologicalSortingByName h' sort' fuel runMode g' vec' = some (ok, found') ∧
      found.map (Node.getName h) = found'.map (Node.getName h')

namespace SortByNamesAux

section
variable {h h' : Heap} {g g' : GraphId} {node : NodeId → NodeId} {anchor : AnchorId → AnchorId} {n : NodeId}
  {runMode : Option Int}

/-! ## Where sorting starts -/

section
variable (hsame : SameGraph h g h' g' node anchor) (hwaits : ∀ n ∈ (h.graph g).nodes, waits h' (node n) = waits h n)

theorem inputStack_perm : (h.inputStack g).Perm ((h.graph g).nodes.filter fun n => waits h n = 0) :=
  (ExchangeSort.perm_sort _ _).trans (perm_collected _)

theorem mem_inputStack : n ∈ h.inputStack g ↔ n ∈ (h.graph g).nodes ∧ waits h n = 0 := by
  rw [inputStack_perm.mem_iff, mem_filter, decide_eq_true_eq]

/-- Where no isolated node is found, sorting starts from the source nodes. -/
theorem sortNodes_some (hn : NoIsolated h runMode g) : sortNodes h runMode g =
    some (h.inputStack g, Kahn.countersOf uint32Size (h.graph g).nodes (waits h) fun _ => 0) := by
  obtain ⟨stack, num, hs⟩ := sortNodes_none (h := h) g
  rw [sortNodes_eq hn, hs, sortNodes_stack hs, (sortNodes_spec hs).2]
  rfl

/-- Otherwise sorting stops there. -/
theorem sortNodes_isolated (hn : ¬ NoIsolated h runMode g) : sortNodes h runMode g = none := by
  unfold NoIsolated at hn
  push Not at hn
  obtain ⟨hverify, n, hmem, hz, hdata, hout⟩ := hn
  have hnone : ∀ s, enterNode h (verifyIsolated runMode) s n = none := by
    intro s
    unfold enterNode
    change (if waits h n = 0 then _ else _) = _
    simp [hz, hdata, hout, hverify]
  obtain ⟨pre, post, hsplit⟩ := append_of_mem hmem
  unfold sortNodes
  rw [hsplit, foldlM_append]
  simp only [foldlM_cons, hnone, map_eq_none_iff, bind_eq_bind, bind_none, bind_fun_none]

include hsame hwaits

theorem stack_perm : (h'.inputStack g').Perm ((h.inputStack g).map node) := by
  have hfilter : ((h.graph g).nodes.map node).filter (fun n => waits h' n = 0) =
      ((h.graph g).nodes.filter fun n => waits h n = 0).map node := by
    rw [List.filter_map]
    refine congrArg _ (filter_congr fun n hn => ?_)
    rw [comp_apply, hwaits n hn]
  have hperm := hsame.nodes.filter fun n => waits h' n = 0
  rw [hfilter] at hperm
  exact inputStack_perm.trans (hperm.symm.trans (inputStack_perm.map node).symm)

theorem noIsolated_iff : NoIsolated h' runMode g' ↔ NoIsolated h runMode g := by
  unfold NoIsolated
  refine imp_congr_right fun _ => ⟨fun hall n hn hz => ?_, fun hall n' hn' hz => ?_⟩
  · have hnode := hall (node n) (mem_node hsame hn) (by rw [hwaits n hn, hz])
    rwa [Node.isDataType, hsame.type n hn, getOutEdgeSize_node hsame hn] at hnode
  · obtain ⟨n, hn, rfl⟩ := exists_node hsame hn'
    rw [Node.isDataType, hsame.type n hn, getOutEdgeSize_node hsame hn]
    exact hall n hn (by rw [← hwaits n hn, hz])

theorem nonUserInputIndex_node : nonUserInputIndex h' g' (h'.inputStack g') = nonUserInputIndex h g (h.inputStack g) := by
  have hlen : (h'.inputStack g').length = (h.inputStack g).length := by
    simpa using (stack_perm hsame hwaits).length_eq
  rw [nonUserInputIndex, nonUserInputIndex, hlen, hsame.inputsOrder]

end

/-! ## Rounds -/

section
variable {s t : BfsState} {stack stackInput : List NodeId}

theorem frontByName_perm (hf : frontByName s = some (n, stack, stackInput)) :
    (s.stackInput ++ s.stack).Perm (n :: (stackInput ++ stack)) := by
  unfold frontByName at hf
  cases hstack : s.stack with
  | cons m l =>
    rw [hstack] at hf
    obtain ⟨rfl, rfl, rfl⟩ : m = n ∧ l = stack ∧ s.stackInput = stackInput := by simpa using hf
    exact perm_middle
  | nil =>
    rw [hstack] at hf
    obtain ⟨m, hm, heq⟩ := map_eq_some_iff.mp hf
    obtain ⟨rfl, rfl, rfl⟩ : m = n ∧ [] = stack ∧ s.stackInput.dropLast = stackInput := by simpa using heq
    have hsplit : s.stackInput.dropLast ++ [m] = s.stackInput := dropLast_append_getLast? m hm
    rw [append_nil, append_nil, ← hsplit, dropLast_concat]
    exact perm_append_singleton m _

theorem frontByName_none (hf : frontByName s = none) : s.stackInput = [] ∧ s.stack = [] := by
  unfold frontByName at hf
  cases hstack : s.stack with
  | cons m l => simp [hstack] at hf
  | nil =>
    rw [hstack] at hf
    exact ⟨getLast?_eq_none_iff.mp (map_eq_none_iff.mp hf), rfl⟩

theorem visitByName_eq (h : Heap) (s : BfsState) : visitByName h s = (frontByName s).map fun front =>
    { nodeVec := s.nodeVec ++ [front.1]
      stack := front.2.1 ++ (OrderedMap.insertAll (Node.getName h) [] (released h s front.1)).map Prod.snd
      stackInput := front.2.2
      mapInEdgeNum := (countDown s.mapInEdgeNum (targets h front.1)).1 } := by
  unfold visitByName
  cases frontByName s <;> rfl

/-- A round is a visit. -/
theorem visitByName_visit (hs : visitByName h s = some t) : Kahn.Visit uint32Size (targets h) (toState s) (toState t) := by
  rw [visitByName_eq] at hs
  obtain ⟨⟨n, stack, stackInput⟩, hf, rfl⟩ := map_eq_some_iff.mp hs
  refine ⟨n, stackInput ++ stack, _, _, frontByName_perm hf, rfl, rfl, ?_⟩
  have hsub := insertAll_subperm (Node.getName h) (released h s n) []
  rw [map_nil, nil_append] at hsub
  simp only [toState]
  rw [← append_assoc]
  exact (subperm_append_left _).mpr hsub

end

/-! ## Two runs in step -/

/-- The states of two runs: what one has visited and still has to visit is mapped to what the other has. -/
structure Alike (h : Heap) (g : GraphId) (h' : Heap) (g' : GraphId) (node : NodeId → NodeId) (s s' : BfsState) : Prop where
  valid : ValidRun h g (toState s)
  valid' : ValidRun h' g' (toState s')
  nodeVec : s'.nodeVec = s.nodeVec.map node
  stack : s'.stack = s.stack.map node
  stackInput : s'.stackInput = s.stackInput.map node

section
variable {s s' : BfsState} {stack stackInput : List NodeId}

/-- The run that is mapped goes on with the node that is mapped. -/
theorem frontByName_map (hstack : s'.stack = s.stack.map node) (hinput : s'.stackInput = s.stackInput.map node) :
    frontByName s' = (frontByName s).map fun front => (node front.1, front.2.1.map node, front.2.2.map node) := by
  unfold frontByName
  rw [hstack, hinput]
  cases s.stack with
  | cons m l => rfl
  | nil =>
    rw [map_nil, getLast?_map, ← map_dropLast]
    cases s.stackInput.getLast? <;> rfl

variable (hg : Sortable h g) (hg' : Sortable h' g') (hsame : SameGraph h g h' g' node anchor)
  (hnames : ((h.graph g).nodes.map (Node.getName h)).Nodup) (hwaits : ∀ n ∈ (h.graph g).nodes, waits h' (node n) = waits h n)
include hg hg' hsame hnames

theorem arrivals_map {l : List NodeId} (hl : l ⊆ (h.graph g).nodes) (hn : n ∈ (h.graph g).nodes) :
    Kahn.arrivals (targets h') (l.map node) (node n) = Kahn.arrivals (targets h) l n := by
  unfold Kahn.arrivals
  rw [List.map_map]
  refine congrArg List.sum (map_congr_left fun u hu => ?_)
  rw [comp_apply, (targets_perm hg hg' hsame (hl hu)).count_eq,
    count_map_node hsame hnames (targets_subset hg (hl hu)) hn]

include hwaits

/-- A visit leaves the nodes without inputs that are mapped to. -/
theorem released_map (ha : Alike h g h' g' node s s') (hf : frontByName s = some (n, stack, stackInput)) :
    (released h s n).Nodup ∧ released h s n ⊆ (h.graph g).nodes ∧
      (released h' s' (node n)).Perm ((released h s n).map node) := by
  have hf' : frontByName s' = some (node n, stack.map node, stackInput.map node) := by
    rw [frontByName_map ha.stack ha.stackInput, hf]
    rfl
  have hpick := frontByName_perm hf
  obtain ⟨-, hnodup, hmem⟩ := ha.valid.listed.release (fun v _ => waits_lt h v) (fun _ hv => arrivals_lt hg hv) hpick
  obtain ⟨-, hnodup', hmem'⟩ := ha.valid'.listed.release (fun v _ => waits_lt h' v) (fun _ hv => arrivals_lt hg' hv)
    (frontByName_perm hf')
  have hsub : s.nodeVec ⊆ (h.graph g).nodes := fun v hv => ha.valid.subset (mem_append_left _ hv)
  have hn : n ∈ (h.graph g).nodes := ha.valid.subset (mem_append_right _ (hpick.mem_iff.mpr mem_cons_self))
  have hvisited : s.nodeVec ++ [n] ⊆ (h.graph g).nodes := append_subset.mpr ⟨hsub, by simpa using hn⟩
  have hnew : s'.nodeVec ++ [node n] = (s.nodeVec ++ [n]).map node := by rw [ha.nodeVec, map_append, map_singleton]
  have hsubset : released h s n ⊆ (h.graph g).nodes := fun v hv => ((hmem v).mp hv).1
  refine ⟨hnodup, hsubset, (perm_ext_iff_of_nodup hnodup' ?_).mpr fun v' => ?_⟩
  · exact hnodup.map_on fun u hu v hv huv => node_inj hsame hnames (hsubset hu) (hsubset hv) huv
  have hmapped : ∀ v ∈ (h.graph g).nodes, (node v ∈ released h' s' (node n) ↔ v ∈ released h s n) := by
    intro v hv
    refine (hmem' (node v)).trans (Iff.trans ?_ (hmem v).symm)
    change node v ∈ _ ∧ Kahn.arrivals _ s'.nodeVec _ < _ ∧ _ ≤ Kahn.arrivals _ (s'.nodeVec ++ [node n]) _ ↔ _
    rw [hnew, ha.nodeVec, arrivals_map hg hg' hsame hnames hsub hv, arrivals_map hg hg' hsame hnames hvisited hv, hwaits v hv]
    exact and_congr_left fun _ => iff_of_true (mem_node hsame hv) hv
  constructor
  · intro hv'
    obtain ⟨v, hv, rfl⟩ := exists_node hsame ((hmem' v').mp hv').1
    exact List.mem_map_of_mem ((hmapped v hv).mp hv')
  · intro hv'
    obtain ⟨v, hv, rfl⟩ := List.mem_map.mp hv'
    exact (hmapped v (hsubset hv)).mpr hv

/-- The map of names lists these in the same order. -/
theorem collected_map (ha : Alike h g h' g' node s s') (hf : frontByName s = some (n, stack, stackInput)) :
    (OrderedMap.insertAll (Node.getName h') [] (released h' s' (node n))).map Prod.snd =
      ((OrderedMap.insertAll (Node.getName h) [] (released h s n)).map Prod.snd).map node := by
  obtain ⟨hnodup, hsub, hperm⟩ := released_map hg hg' hsame hnames hwaits ha hf
  have hkeys : ((released h s n).map (Node.getName h)).Nodup :=
    hnodup.map_on fun u hu v hv huv => inj_on_of_nodup_map hnames (hsub hu) (hsub hv) huv
  have hkeys' : ((released h' s' (node n)).map (Node.getName h')).Nodup := by
    rw [(hperm.map _).nodup_iff, names_map hsame hsub]
    exact hkeys
  have heq : OrderedMap.insertAll (Node.getName h') [] (released h' s' (node n)) =
      (OrderedMap.insertAll (Node.getName h) [] (released h s n)).map fun e => (e.1, node e.2) := by
    refine insertAll_eq hkeys' ?_ ?_
    · exact pairwise_map.mpr (sorted_insertAll _ _ List.Pairwise.nil)
    · refine ((insertAll_entries hkeys).map _).trans (List.Perm.symm ((hperm.map _).trans (List.Perm.of_eq ?_)))
      rw [List.map_map, List.map_map]
      exact map_congr_left fun v hv => by simp [hsame.name v (hsub hv)]
  rw [heq, List.map_map, List.map_map]
  rfl

/-- A round keeps two runs in step. -/
theorem alike_visit (ha : Alike h g h' g' node s s') :
    Option.Rel (Alike h g h' g' node) (visitByName h s) (visitByName h' s') := by
  cases hf : frontByName s with
  | none =>
    have hf' : frontByName s' = none := by rw [frontByName_map ha.stack ha.stackInput, hf]; rfl
    rw [visitByName_eq, visitByName_eq, hf, hf']
    exact .none
  | some front =>
    obtain ⟨n, stack, stackInput⟩ := front
    have hf' : frontByName s' = some (node n, stack.map node, stackInput.map node) := by
      rw [frontByName_map ha.stack ha.stackInput, hf]
      rfl
    have hs : ∃ t, visitByName h s = some t := by simp [visitByName_eq, hf]
    have hs' : ∃ t, visitByName h' s' = some t := by simp [visitByName_eq, hf']
    obtain ⟨t, ht⟩ := hs
    obtain ⟨t', ht'⟩ := hs'
    have hvalid := validRun_visit hg ha.valid (visitByName_visit ht)
    have hvalid' := validRun_visit hg' ha.valid' (visitByName_visit ht')
    rw [ht, ht']
    rw [visitByName_eq, hf] at ht
    rw [visitByName_eq, hf'] at ht'
    obtain rfl := Option.some.inj ht
    obtain rfl := Option.some.inj ht'
    refine .some ⟨hvalid, hvalid', ?_, ?_, rfl⟩
    · rw [ha.nodeVec, map_append, map_singleton]
    · change stack.map node ++ _ = (stack ++ _).map node
      rw [collected_map hg hg' hsame hnames hwaits ha hf, map_append]

end

/-! ## The start -/

section
variable (hg : Sortable h g) (hg' : Sortable h' g') (hsame : SameGraph h g h' g' node anchor)
  (hnames : ((h.graph g).nodes.map (Node.getName h)).Nodup) (hwaits : ∀ n ∈ (h.graph g).nodes, waits h' (node n) = waits h n)
include hsame hnames

/-- Sorts by name agree on nodes of distinct names. -/
theorem sort_map (sort : NameSort h) (sort' : NameSort h') {l l' : List NodeId} (hl : l ⊆ (h.graph g).nodes)
    (hperm : l'.Perm (l.map node)) : sort'.sort l' = (sort.sort l).map node := by
  have hsub : sort.sort l ⊆ (h.graph g).nodes := fun n hn => hl ((sort.perm l).mem_iff.mp hn)
  refine UnstableSort.eq_of_falling ((sort'.perm l').trans (hperm.trans ((sort.perm l).map node).symm)) ?_ (sort'.falling l') ?_
  · intro a ha b hb hab
    obtain ⟨m, hm, rfl⟩ := List.mem_map.mp ha
    obtain ⟨n, hn, rfl⟩ := List.mem_map.mp hb
    exact inj_on_of_nodup_map (nodup_names hsame hnames) (mem_node hsame (hsub hm)) (mem_node hsame (hsub hn)) hab
  · refine pairwise_map.mpr ((sort.falling l).imp_of_mem fun hm hn hmn => ?_)
    rwa [hsame.name _ (hsub hm), hsame.name _ (hsub hn)]

include hwaits

/-- Where the stacks end alike, they are mapped as a whole once the rest is sorted. -/
theorem sortStackInput_map (hends : SameEnds h g h' g') (sort : NameSort h) (sort' : NameSort h') :
    ∃ l, sortStackInput h sort g (h.inputStack g) = some l ∧ sortStackInput h' sort' g' (h'.inputStack g') = some (l.map node) ∧
      l.Perm (h.inputStack g) := by
  obtain ⟨hle, hend⟩ := hends
  have hindex := nonUserInputIndex_node hsame hwaits
  have hperm := stack_perm hsame hwaits
  have hlen : (h'.inputStack g').length = (h.inputStack g).length := by simpa using hperm.length_eq
  have hsub : h.inputStack g ⊆ (h.graph g).nodes := fun n hn => (mem_inputStack.mp hn).1
  have hsub' : h'.inputStack g' ⊆ (h'.graph g').nodes := fun n hn => (mem_inputStack.mp hn).1
  have hdrop : (h'.inputStack g').drop (nonUserInputIndex h g (h.inputStack g)) =
      ((h.inputStack g).drop (nonUserInputIndex h g (h.inputStack g))).map node := by
    rw [unsortedInputs, unsortedInputs, hindex] at hend
    exact eq_map_of_names hsame hnames (fun n hn => hsub (mem_of_mem_drop hn))
      (fun n hn => hsub' (mem_of_mem_drop hn)) hend
  have htake : ((h'.inputStack g').take (nonUserInputIndex h g (h.inputStack g))).Perm
      (((h.inputStack g).take (nonUserInputIndex h g (h.inputStack g))).map node) := by
    refine (perm_append_right_iff ((h'.inputStack g').drop (nonUserInputIndex h g (h.inputStack g)))).mp ?_
    rw [take_append_drop, hdrop, ← map_append, take_append_drop]
    exact hperm
  refine ⟨_, if_pos hle, ?_, ?_⟩
  · rw [sortStackInput, hindex, if_pos (hlen ▸ hle), hdrop, map_append,
      sort_map hsame hnames sort sort' (fun n hn => hsub (mem_of_mem_take hn)) htake]
  · exact ((sort.perm _).append_right _).trans (List.Perm.of_eq (take_append_drop _ _))

end

/-! ## The end -/

section
variable {s t : BfsState} {l : List NodeId} {fuel : Nat}

/-- The nodes found are appended to what is there. -/
theorem loop_append (vec : List NodeId) (fuel : Nat) : ∀ s, Run.loop (visitByName h) fuel { s with nodeVec := vec ++ s.nodeVec } =
      (Run.loop (visitByName h) fuel s).map fun t => { t with nodeVec := vec ++ t.nodeVec } := by
  induction fuel with
  | zero => exact fun _ => rfl
  | succ fuel ih =>
    intro s
    have hfront : frontByName { s with nodeVec := vec ++ s.nodeVec } = frontByName s := rfl
    unfold Run.loop
    rw [visitByName_eq, visitByName_eq, hfront]
    cases frontByName s with
    | none => rfl
    | some front =>
      simp only [map_some]
      rw [← ih]
      simp only [append_assoc]
      rfl

theorem loop_returns (hg : Sortable h g) (hs : ValidRun h g (toState s)) (hempty : s.nodeVec = [])
    (hfuel : (h.graph g).nodes.length < fuel) : ∃ t, Run.loop (visitByName h) fuel s = some t := by
  refine Run.loop_stops (P := fun s => ValidRun h g (toState s)) (fun s => s.nodeVec.length) (h.graph g).nodes.length ?_
    (fun s hs => visited_le hs) fuel s hs (by simpa [hempty] using hfuel)
  intro s t hs hstep
  have hvisit := visitByName_visit hstep
  exact ⟨validRun_visit hg hs hvisit, visited_length hvisit⟩

/-- What a run keeps of the sources: those found and those still on the stack stand in the order of the stack it starts from,
and none is in the queue. -/
structure SourcesKept (h : Heap) (g : GraphId) (l : List NodeId) (s : BfsState) : Prop where
  valid : ValidRun h g (toState s)
  stack : ∀ n ∈ s.stack, waits h n ≠ 0
  stackInput : ∀ n ∈ s.stackInput, waits h n = 0
  order : s.nodeVec.filter (fun n => waits h n = 0) ++ s.stackInput.reverse = l.reverse

theorem sourcesKept_visit (hg : Sortable h g) (hs : SourcesKept h g l s) (hv : visitByName h s = some t) :
    SourcesKept h g l t := by
  have hvalid := validRun_visit hg hs.valid (visitByName_visit hv)
  rw [visitByName_eq] at hv
  obtain ⟨⟨n, stack, stackInput⟩, hf, rfl⟩ := map_eq_some_iff.mp hv
  have hreleased : ∀ v ∈ (OrderedMap.insertAll (Node.getName h) [] (released h s n)).map Prod.snd, waits h v ≠ 0 := by
    intro v hv
    have hmem := (insertAll_subperm (Node.getName h) (released h s n) []).subset hv
    rw [map_nil, nil_append] at hmem
    obtain ⟨-, -, hrelease⟩ := hs.valid.listed.release (fun v _ => waits_lt h v) (fun _ hv => arrivals_lt hg hv)
      (frontByName_perm hf)
    exact Nat.ne_zero_of_lt ((hrelease v).mp hmem).2.1
  unfold frontByName at hf
  cases hstack : s.stack with
  | cons m q =>
    rw [hstack] at hf
    obtain ⟨rfl, rfl, rfl⟩ := Cmd.of_return hf
    have hq := hs.stack
    rw [hstack] at hq
    refine ⟨hvalid, fun v hv => ?_, hs.stackInput, ?_⟩
    · rcases mem_append.mp hv with hv | hv
      · exact hq v (mem_cons_of_mem m hv)
      · exact hreleased v hv
    · simpa [hq m mem_cons_self] using hs.order
  | nil =>
    rw [hstack] at hf
    obtain ⟨m, hm, heq⟩ := map_eq_some_iff.mp hf
    obtain ⟨rfl, rfl, rfl⟩ : m = n ∧ [] = stack ∧ s.stackInput.dropLast = stackInput := by simpa using heq
    have hsplit : s.stackInput.dropLast ++ [m] = s.stackInput := dropLast_append_getLast? m hm
    have horder := hs.order
    have hinput := hs.stackInput
    rw [← hsplit] at horder hinput
    refine ⟨hvalid, hreleased, fun v hv => hinput v (mem_append_left _ hv), ?_⟩
    simpa [hinput m (by simp)] using horder

/-- The state sorting by name starts in. -/
abbrev startState (h : Heap) (g : GraphId) (l : List NodeId) : BfsState :=
  { stackInput := l, mapInEdgeNum := Kahn.countersOf uint32Size (h.graph g).nodes (waits h) fun _ => 0 }

theorem sourcesKept_start (hg : Sortable h g) (hl : l.Perm (h.inputStack g)) : SourcesKept h g l (startState h g l) where
  valid := by
    unfold toState
    rw [append_nil]
    refine Kahn.valid_start ?_ fun v hv => mem_inputStack.mp (hl.mem_iff.mp hv)
    exact (hl.trans inputStack_perm).nodup_iff.mpr (hg.nodup.filter _)
  stack := by simp
  stackInput v hv := (mem_inputStack.mp (hl.mem_iff.mp hv)).2
  order := rfl

/-- What is found is a run of the loop, appended to what is there. -/
theorem sortedByName_eq (hn : NoIsolated h runMode g) {sort : NameSort h} (hl : sortStackInput h sort g (h.inputStack g) = some l)
    (ht : Run.loop (visitByName h) fuel (startState h g l) = some t) (vec : List NodeId) :
    topologicalSortingByName h sort fuel runMode g vec =
      some ((vec ++ t.nodeVec).length == (h.graph g).directNodesSize, vec ++ t.nodeVec) := by
  have hloop := loop_append (h := h) vec fuel (startState h g l)
  rw [ht, append_nil] at hloop
  unfold topologicalSortingByName
  simp only [sortNodes_some hn, bind_eq_bind, hl, bind_some, hloop, map_some]
  rfl

/-- A run ends with the sources in the order of the stack it starts from. -/
theorem sources_found (hg : Sortable h g) (hl : l.Perm (h.inputStack g))
    (ht : Run.loop (visitByName h) fuel (startState h g l) = some t) :
    t.nodeVec ⊆ (h.graph g).nodes ∧ t.nodeVec.filter (fun n => waits h n = 0) = l.reverse := by
  obtain ⟨hkept, hstop⟩ := Run.loop_invariant (fun _ _ => sourcesKept_visit hg) fuel _ t (sourcesKept_start hg hl) ht
  rw [visitByName_eq, map_eq_none_iff] at hstop
  have horder := hkept.order
  rw [(frontByName_none hstop).1, reverse_nil, append_nil] at horder
  exact ⟨fun n hn => hkept.valid.subset (mem_append_left _ hn), horder⟩

/-- A sort by names. -/
def someSort (h : Heap) : NameSort h :=
  UnstableSort.ranked (fun a b : NodeId => a ≤ b) (by simpa using fun a b c => le_trans) (by simpa using le_total)

/-- What sorting by name returns was found by a run of the loop, from a stack whose range was sorted. -/
theorem sortedByName_some (hn : NoIsolated h runMode g) {sort : NameSort h} {r : Bool × List NodeId}
    (hr : topologicalSortingByName h sort fuel runMode g [] = some r) :
    nonUserInputIndex h g (h.inputStack g) ≤ (h.inputStack g).length ∧ ∃ l t, l.Perm (h.inputStack g) ∧
      l.drop (nonUserInputIndex h g (h.inputStack g)) = h.unsortedInputs g ∧
      Run.loop (visitByName h) fuel (startState h g l) = some t ∧ r.2 = t.nodeVec := by
  simp only [topologicalSortingByName, sortNodes_some hn, bind_eq_bind, bind_eq_some_iff] at hr
  obtain ⟨l, hl, t, ht, heq⟩ := hr
  obtain rfl := Option.some.inj heq
  unfold sortStackInput at hl
  by_cases hle : nonUserInputIndex h g (h.inputStack g) ≤ (h.inputStack g).length
  · rw [if_pos hle] at hl
    obtain rfl := Option.some.inj hl
    refine ⟨hle, _, t, ((sort.perm _).append_right _).trans (List.Perm.of_eq (take_append_drop _ _)), ?_, ht, rfl⟩
    refine drop_left' ?_
    rw [(sort.perm _).length_eq, length_take, min_eq_left hle]
  · rw [if_neg hle] at hl
    cases hl

end

end

end SortByNamesAux

open SortByNamesAux

/-- Two graphs with the same nodes and edges are sorted by name alike exactly when no isolated node is found and the ends of their
stacks that are left unsorted have the same names, or one is found in both. -/
theorem sortedAlike_iff (h h' : Heap) (g g' : GraphId) (node : NodeId → NodeId) (anchor : AnchorId → AnchorId)
    (hg : Sortable h g) (hg' : Sortable h' g') (hfirst : ∀ n ∈ (h.graph g).nodes, LoopsFirst h n)
    (hfirst' : ∀ n ∈ (h'.graph g').nodes, LoopsFirst h' n)
    (hsize : (h'.graph g').directNodesSize = (h.graph g).directNodesSize)
    (hnames : ((h.graph g).nodes.map (Node.getName h)).Nodup) (hsame : SameGraph h g h' g' node anchor) (runMode : Option Int) :
    SortedAlike h g h' g' runMode ↔ (NoIsolated h runMode g → SameEnds h g h' g') := by
  have hwaits : ∀ n ∈ (h.graph g).nodes, waits h' (node n) = waits h n := fun n hn =>
    waits_node hg hg' hsame hn (hfirst n hn) (hfirst' _ (mem_node hsame hn))
  have hlen : (h'.graph g').nodes.length = (h.graph g).nodes.length := by simpa using hsame.nodes.length_eq.symm
  constructor
  · intro halike hn
    have hn' := (noIsolated_iff hsame hwaits).mpr hn
    obtain ⟨ok, found, found', hr, hr', hfound⟩ := halike (someSort h) (someSort h') _ [] [] (Nat.lt_succ_self _) rfl
    obtain ⟨hle, l, t, hl, hdrop, ht, rfl⟩ := sortedByName_some hn hr
    obtain ⟨-, l', t', hl', hdrop', ht', rfl⟩ := sortedByName_some hn' hr'
    obtain ⟨hsub, hsources⟩ := sources_found hg hl ht
    obtain ⟨hsub', hsources'⟩ := sources_found hg' hl' ht'
    -- what is found is mapped, so its sources are, and they are the stack
    have hmap : t'.nodeVec = t.nodeVec.map node := eq_map_of_names hsame hnames hsub hsub' hfound
    have hstack : l' = l.map node := by
      rw [← reverse_inj, ← hsources', hmap, List.filter_map, ← map_reverse, ← hsources]
      refine congrArg _ (filter_congr fun n hn => ?_)
      rw [comp_apply, hwaits n (hsub hn)]
    refine ⟨hle, ?_⟩
    rw [← hdrop', hstack, nonUserInputIndex_node hsame hwaits, ← map_drop, hdrop]
    refine (names_map hsame fun n hn => ?_).symm
    exact (mem_inputStack.mp (mem_of_mem_drop hn)).1
  · intro hends sort sort' fuel vec vec' hfuel hvec
    by_cases hn : NoIsolated h runMode g
    · have hn' := (noIsolated_iff hsame hwaits).mpr hn
      obtain ⟨l, hl, hl', hperm⟩ := sortStackInput_map hsame hnames hwaits (hends hn) sort sort'
      have hperm' := (hperm.map node).trans (stack_perm hsame hwaits).symm
      have hkept := sourcesKept_start hg hperm
      obtain ⟨t, ht⟩ := loop_returns hg hkept.valid rfl hfuel
      have hrel := Run.loop_related (fun s s' => alike_visit hg hg' hsame hnames hwaits) fuel (startState h g l)
        (startState h' g' (l.map node)) ⟨hkept.valid, (sourcesKept_start hg' hperm').valid, rfl, rfl, rfl⟩
      obtain ⟨t', ht'⟩ := loop_returns hg' (sourcesKept_start hg' hperm').valid rfl (hlen ▸ hfuel)
      rw [ht, ht'] at hrel
      obtain ⟨ha⟩ := hrel
      have hlen : (vec' ++ t'.nodeVec).length = (vec ++ t.nodeVec).length := by
        have hvecs : vec'.length = vec.length := by simpa using (congrArg List.length hvec).symm
        rw [length_append, length_append, ha.nodeVec, length_map, hvecs]
      refine ⟨_, vec ++ t.nodeVec, vec' ++ t'.nodeVec, sortedByName_eq hn hl ht vec, ?_, ?_⟩
      · rw [sortedByName_eq hn' hl' ht' vec', hlen, hsize]
      · rw [map_append, map_append, hvec, ha.nodeVec, names_map hsame]
        exact fun n hn => ha.valid.subset (mem_append_left _ hn)
    · refine ⟨false, vec, vec', ?_, ?_, hvec⟩
      · rw [topologicalSortingByName, sortNodes_isolated hn]
      · rw [topologicalSortingByName, sortNodes_isolated fun hn' => hn ((noIsolated_iff hsame hwaits).mp hn')]

namespace SortByNamesWitness

/-- The nodes that calls make, added to a graph in an order. -/
def graphOf (calls : List LinkCall) (nodes : List NodeId) : Heap :=
  GraphSteps.addAll 0 ((LinkCall.runAll calls).getD .empty) nodes

theorem sortable_graphOf {calls : List LinkCall} {nodes : List NodeId}
    (hcareful : Run.Each LinkCall.step LinkCall.Careful calls Heap.empty) (hruns : (LinkCall.runAll calls).isSome)
    (hlinks : ∀ a < (graphOf calls nodes).anchorCount, ∀ b ∈ (graphOf calls nodes).peers a,
      ((graphOf calls nodes).kind b).isIn = !((graphOf calls nodes).kind a).isIn ∧
        (graphOf calls nodes).owner b ∈ ((graphOf calls nodes).graph 0).nodes)
    (hnodes : ∀ n ∈ ((graphOf calls nodes).graph 0).nodes,
      n < (graphOf calls nodes).nodeCount ∧ (graphOf calls nodes).inLinks n < uint32Size)
    (hnodup : ((graphOf calls nodes).graph 0).nodes.Nodup) : Sortable (graphOf calls nodes) 0 := by
  have hsound : (graphOf calls nodes).Sound := by
    obtain ⟨h, hh⟩ := isSome_iff_exists.mp hruns
    refine GraphSteps.sound_addAll 0 _ ?_
    rw [hh]
    exact sound_runAll calls h hcareful hh
  have hpeers := hsound.forall_peers hlinks
  exact ⟨hsound, fun a b hb => (hpeers a b hb).1, ⟨fun n hn => (hnodes n hn).1, fun a _ b hb => (hpeers a b hb).2⟩, hnodup,
    fun n hn => (hnodes n hn).2⟩

/-- An input and two nodes that are fed by it, in the order of their anchors given. -/
def fork (dests : List AnchorId) : List LinkCall :=
  [.newOp { opDef := { name := "x", type := "Data" }, outputsDesc := [{}] }, .newNode 0,
    .newOp { opDef := { name := "y", type := "Relu" }, inputsDesc := [{}] }, .newNode 1,
    .newOp { opDef := { name := "z", type := "Relu" }, inputsDesc := [{}] }, .newNode 2] ++
  dests.map fun b => .addDataEdge (some 2) (some b)

/-- The two nodes are added, and their edges linked, in either order. -/
theorem sortedAlike_fork : SortedAlike (graphOf (fork [5, 8]) [0, 1, 2]) 0 (graphOf (fork [8, 5]) [0, 2, 1]) 0 none := by
  have hg : Sortable (graphOf (fork [5, 8]) [0, 1, 2]) 0 := sortable_graphOf (by decide +kernel) (by decide +kernel)
    (by decide +kernel) (by decide +kernel) (by decide +kernel)
  have hg' : Sortable (graphOf (fork [8, 5]) [0, 2, 1]) 0 := sortable_graphOf (by decide +kernel) (by decide +kernel)
    (by decide +kernel) (by decide +kernel) (by decide +kernel)
  have hsame : SameGraph (graphOf (fork [5, 8]) [0, 1, 2]) 0 (graphOf (fork [8, 5]) [0, 2, 1]) 0 id id := by
    refine ⟨by decide +kernel, by decide +kernel, by decide +kernel, fun n hn k => ?_, fun n hn k => ?_, by decide +kernel⟩
    · revert n
      cases k <;> decide +kernel
    · revert n
      cases k <;> decide +kernel
  refine (sortedAlike_iff _ _ 0 0 id id hg hg' (by decide +kernel) (by decide +kernel) (by decide +kernel) (by decide +kernel)
    hsame none).mpr fun _ => ?_
  have hrun : (sortNodes (graphOf (fork [5, 8]) [0, 1, 2]) none 0).map Prod.fst = some [0] := by decide +kernel
  have hrun' : (sortNodes (graphOf (fork [8, 5]) [0, 2, 1]) none 0).map Prod.fst = some [0] := by decide +kernel
  obtain ⟨⟨stack, num⟩, hs, hstack⟩ := map_eq_some_iff.mp hrun
  obtain ⟨⟨stack', num'⟩, hs', hstack'⟩ := map_eq_some_iff.mp hrun'
  have hinput : (graphOf (fork [5, 8]) [0, 1, 2]).inputStack 0 = [0] := (sortNodes_stack hs).symm.trans hstack
  have hinput' : (graphOf (fork [8, 5]) [0, 2, 1]).inputStack 0 = [0] := (sortNodes_stack hs').symm.trans hstack'
  unfold SameEnds unsortedInputs
  rw [hinput, hinput']
  decide +kernel

/-- Two inputs of a graph. -/
def inputs : List LinkCall :=
  [.newOp { opDef := { name := "a", type := "Data" } }, .newNode 0, .newOp { opDef := { name := "b", type := "Data" } },
    .newNode 1]

/-- The first node listed is found first: it is the end of the stack that is not sorted. -/
theorem found_inputs {m n : NodeId} (hg : Sortable (graphOf inputs [m, n]) 0)
    (hrun : (sortNodes (graphOf inputs [m, n]) none 0).map Prod.fst = some [n, m])
    (horder : ((graphOf inputs [m, n]).graph 0).inputsOrder = [])
    (hsources : ∀ v ∈ ((graphOf inputs [m, n]).graph 0).nodes, waits (graphOf inputs [m, n]) v = 0)
    {sort : NameSort (graphOf inputs [m, n])} {fuel : Nat} {r : Bool × List NodeId}
    (hr : topologicalSortingByName (graphOf inputs [m, n]) sort fuel none 0 [] = some r) : r.2.head? = some m := by
  obtain ⟨⟨stack, num⟩, hs, hstack⟩ := map_eq_some_iff.mp hrun
  have hinput : (graphOf inputs [m, n]).inputStack 0 = [n, m] := (sortNodes_stack hs).symm.trans hstack
  have hn : NoIsolated (graphOf inputs [m, n]) none 0 := fun hv => absurd hv Bool.false_ne_true
  obtain ⟨-, l, t, hl, hdrop, ht, hfound⟩ := sortedByName_some hn hr
  obtain ⟨hsub, horder'⟩ := sources_found hg hl ht
  have hall : t.nodeVec.filter (fun v => waits (graphOf inputs [m, n]) v = 0) = t.nodeVec :=
    filter_eq_self.mpr fun v hv => decide_eq_true (hsources v (hsub hv))
  rw [hfound, ← hall, horder', head?_reverse]
  have hindex : nonUserInputIndex (graphOf inputs [m, n]) 0 [n, m] = 1 := by
    rw [nonUserInputIndex, horder]
    change ((2 : Nat).toUInt64 - (0 : Nat).toUInt64 - 1).toNat = 1
    decide
  rw [unsortedInputs, hinput, hindex] at hdrop
  have hlast : l.getLast? = (l.drop 1).getLast? := by
    rw [getLast?_drop, if_neg]
    rw [hl.length_eq, hinput]
    exact Nat.not_succ_le_self 1
  rw [hlast, hdrop]
  rfl

/-- Of two inputs without edges the one added first is found first. -/
theorem sortedAlike_false :
    ¬ ∀ (h h' : Heap) (g g' : GraphId) (node : NodeId → NodeId) (anchor : AnchorId → AnchorId), Sortable h g → Sortable h' g' →
      (∀ n ∈ (h.graph g).nodes, ¬ Relation.TransGen h.AnyEdge n n) → (h.graph g).directNodesSize = (h.graph g).nodes.length →
      (h'.graph g').directNodesSize = (h'.graph g').nodes.length → ((h.graph g).nodes.map (Node.getName h)).Nodup →
      SameGraph h g h' g' node anchor → ∀ runMode, SortedAlike h g h' g' runMode := by
  intro hall
  have hg : Sortable (graphOf inputs [0, 1]) 0 := sortable_graphOf (by decide +kernel) (by decide +kernel)
    (by decide +kernel) (by decide +kernel) (by decide +kernel)
  have hg' : Sortable (graphOf inputs [1, 0]) 0 := sortable_graphOf (by decide +kernel) (by decide +kernel)
    (by decide +kernel) (by decide +kernel) (by decide +kernel)
  have hsame : SameGraph (graphOf inputs [0, 1]) 0 (graphOf inputs [1, 0]) 0 id id := by
    refine ⟨by decide +kernel, by decide +kernel, by decide +kernel, fun n hn k => ?_, fun n hn k => ?_, by decide +kernel⟩
    · revert n
      cases k <;> decide +kernel
    · revert n
      cases k <;> decide +kernel
  have hacyclic := IsolateAux.acyclic_of_lt hg.sound (by decide +kernel)
  obtain ⟨ok, found, found', hr, hr', hfound⟩ := hall _ _ 0 0 id id hg hg' (fun n _ => hacyclic n) (by decide +kernel)
    (by decide +kernel) (by decide +kernel) hsame none (someSort _) (someSort _) _ [] [] (Nat.lt_succ_self _) rfl
  have hfirst := found_inputs hg (by decide +kernel) (by decide +kernel) (by decide +kernel) hr
  have hfirst' := found_inputs hg' (by decide +kernel) (by decide +kernel) (by decide +kernel) hr'
  have hname := congrArg List.head? hfound
  rw [head?_map, head?_map, hfirst, hfirst'] at hname
  exact absurd hname (by decide +kernel)

end SortByNamesWitness

end Metadef
