import Metadef.Lemmas.SortRuns

/-!
# What sorting finds

The order either loop finds lists nodes of the graph without repeats, each after the sources of its edges; where nothing is
dropped and the edges have no cycle it lists them all. Both loops return.
-/

namespace Metadef

open List Run

open Heap ComputeGraph SortRuns EdgeCounts

namespace SortOrder

/-- A graph sorting is about: its links join outputs and inputs of its nodes, which are listed once. -/
structure Sortable (h : Heap) (g : GraphId) : Prop where
  sound : h.Sound
  directed : h.Directed
  closed : h.ClosedGraph g
  nodup : (h.graph g).nodes.Nodup
  fanIn : ∀ n ∈ (h.graph g).nodes, h.inLinks n < uint32Size

variable {h : Heap} {g : GraphId}

/-! ## The counters count edges -/

variable {v u : NodeId} {s t : Kahn.State NodeId} {runMode : Option Int} {fuel : Nat}
  {reverse : Bool} {vec : List NodeId}

theorem waits_eq (hg : Sortable h g) (hv : v ∈ (h.graph g).nodes) : waits h v = getInEdgeSize h v := by
  have hadd := getInEdgeSize_add (h := h) v
  have hlt := hg.fanIn v hv
  exact Nat.mod_eq_of_lt (by omega)

theorem count_targets (hg : Sortable h g) (hu : u ∈ (h.graph g).nodes) (v : NodeId) :
    (targets h u).count v = h.linkCount (fun a b => !h.isLoopLink a b) u v + h.linkCount h.isLoopLink u v := by
  rw [linkCount_add_not]
  exact count_outBlocks hg.sound.laid hg.directed (hg.closed.made u hu) v

/-- No node takes as many arrivals as a counter has values. -/
theorem arrivals_lt (hg : Sortable h g) (hv : v ∈ (h.graph g).nodes) :
    Kahn.arrivals (targets h) (h.graph g).nodes v < uint32Size := by
  have heq : Kahn.arrivals (targets h) (h.graph g).nodes v = h.inLinks v := by
    rw [← sum_linkCount_true hg.sound hg.directed hg.closed hg.nodup hv]
    refine congrArg List.sum (map_congr_left fun u hu => ?_)
    exact count_outBlocks hg.sound.laid hg.directed (hg.closed.made u hu) v
  rw [heq]
  exact hg.fanIn v hv

/-! ## Runs of the loops -/

/-- The states of a run over the nodes of a graph. -/
abbrev ValidRun (h : Heap) (g : GraphId) (s : Kahn.State NodeId) : Prop :=
  Kahn.Valid uint32Size (h.graph g).nodes (targets h) (waits h) s

theorem validRun_visit (hg : Sortable h g) (hs : ValidRun h g s) (hv : Kahn.Visit uint32Size (targets h) s t) : ValidRun h g t :=
  hs.visit (fun v _ => waits_lt h v) (fun _ hv => arrivals_lt hg hv) hv

/-- The nodes `SortNodes` finds start a run, and nothing is missing. -/
theorem start_spec (hg : Sortable h g) {stack : List NodeId} {num : InEdgeNum} (hs : sortNodes h runMode g = some (stack, num)) :
    ValidRun h g ⟨[], stack, num⟩ ∧ Kahn.Complete (h.graph g).nodes (targets h) (waits h) ⟨[], stack, num⟩ := by
  obtain ⟨hperm, rfl⟩ := sortNodes_spec hs
  have hmem : ∀ v, v ∈ stack ↔ v ∈ (h.graph g).nodes ∧ waits h v = 0 := by
    intro v
    rw [hperm.mem_iff, mem_filter, decide_eq_true_eq]
  refine ⟨Kahn.valid_start ?_ fun v hv => (hmem v).mp hv, Kahn.complete_start (fun v hv hz => ?_) _⟩
  · exact hperm.nodup_iff.mpr (hg.nodup.filter _)
  · exact (hmem v).mpr ⟨hv, hz⟩

/-- The depth-first loop ends in a run that dropped nothing and has nothing pending. -/
theorem dfs_spec (hg : Sortable h g) (hs : ValidRun h g s) (hfull : Kahn.Complete (h.graph g).nodes (targets h) (waits h) s)
    (hloop : Run.loop (dfsVisit h reverse) fuel s = some t) :
    ValidRun h g t ∧ Kahn.Complete (h.graph g).nodes (targets h) (waits h) t ∧ t.pending = [] := by
  have hinv := loop_invariant
    (P := fun s => ValidRun h g s ∧ Kahn.Complete (h.graph g).nodes (targets h) (waits h) s) ?_ fuel s t ⟨hs, hfull⟩ hloop
  · exact ⟨hinv.1.1, hinv.1.2, dfsVisit_none hinv.2⟩
  · rintro s t ⟨hs, hfull⟩ hstep
    have hvisit := dfsVisit_full hstep
    exact ⟨validRun_visit hg hs hvisit.visit,
      hfull.fullVisit (fun v _ => waits_lt h v) (fun _ hv => arrivals_lt hg hv) hs hvisit⟩

/-- The breadth-first loop ends in a run that has nothing pending. -/
theorem bfs_spec (hg : Sortable h g) {s t : BfsState} (hs : ValidRun h g (toState s))
    (hloop : Run.loop (bfsVisit h) fuel s = some t) : ValidRun h g (toState t) ∧ (toState t).pending = [] := by
  have hinv := loop_invariant (P := fun s => ValidRun h g (toState s)) ?_ fuel s t hs hloop
  · exact ⟨hinv.1, bfsVisit_none hinv.2⟩
  · intro s t hs hstep
    exact validRun_visit hg hs (bfsVisit_visit hstep)

theorem visited_length (hv : Kahn.Visit uint32Size (targets h) s t) : t.visited.length = s.visited.length + 1 := by
  obtain ⟨u, rest, s, t, -, hvisited, -, -⟩ := hv
  rw [hvisited, length_append]
  rfl

theorem visited_le (hs : ValidRun h g s) : s.visited.length ≤ (h.graph g).nodes.length := by
  have := hs.length_le
  omega

/-- Both loops return when they may take a round for each node and one more. -/
theorem dfs_returns (hg : Sortable h g) (reverse : Bool) (hs : ValidRun h g s)
    (hempty : s.visited = []) (hfuel : (h.graph g).nodes.length < fuel) :
    ∃ t, Run.loop (dfsVisit h reverse) fuel s = some t := by
  refine loop_stops (P := ValidRun h g) (fun s => s.visited.length) (h.graph g).nodes.length ?_
    (fun s hs => visited_le hs) fuel s hs (by simpa [hempty] using hfuel)
  intro s t hs hstep
  have hvisit := (dfsVisit_full hstep).visit
  exact ⟨validRun_visit hg hs hvisit, visited_length hvisit⟩

theorem bfs_returns (hg : Sortable h g) {s : BfsState} (hs : ValidRun h g (toState s))
    (hempty : s.nodeVec = []) (hfuel : (h.graph g).nodes.length < fuel) :
    ∃ t, Run.loop (bfsVisit h) fuel s = some t := by
  refine loop_stops (P := fun s => ValidRun h g (toState s)) (fun s => s.nodeVec.length) (h.graph g).nodes.length ?_
    (fun s hs => visited_le hs) fuel s hs (by simpa [hempty] using hfuel)
  intro s t hs hstep
  have hvisit := bfsVisit_visit hstep
  exact ⟨validRun_visit hg hs hvisit, visited_length hvisit⟩

/-! ## The order found -/

/-- An order either loop finds is that of a run. -/
theorem sortedNodes_valid (hg : Sortable h g)
    (hs : sortedNodes h fuel runMode reverse g = some (some vec)) : ∃ s, ValidRun h g s ∧ s.visited = vec := by
  unfold sortedNodes bfsTopologicalSorting dfsTopologicalSorting at hs
  cases hstart : sortNodes h runMode g with
  | none => simp [hstart] at hs
  | some p =>
    obtain ⟨stack, num⟩ := p
    obtain ⟨hvalid, hfull⟩ := start_spec hg hstart
    simp only [hstart] at hs
    split at hs
    · obtain ⟨t, ht, heq⟩ := Option.map_eq_some_iff.mp hs
      have hbfs : ValidRun h g (toState { stackInput := stack, mapInEdgeNum := num }) := by
        unfold toState
        rwa [append_nil]
      exact ⟨toState t, (bfs_spec hg hbfs ht).1, Option.some.inj heq⟩
    · obtain ⟨t, ht, heq⟩ := Option.map_eq_some_iff.mp hs
      exact ⟨t, (dfs_spec hg hvalid hfull ht).1, Option.some.inj heq⟩

/-- Sorting returns. -/
theorem sortedNodes_returns (hg : Sortable h g) (hfuel : (h.graph g).nodes.length < fuel)
    (runMode : Option Int) (reverse : Bool) : ∃ r, sortedNodes h fuel runMode reverse g = some r := by
  unfold sortedNodes bfsTopologicalSorting dfsTopologicalSorting
  cases hstart : sortNodes h runMode g with
  | none => simp
  | some p =>
    obtain ⟨stack, num⟩ := p
    obtain ⟨hvalid, -⟩ := start_spec hg hstart
    have hbfs : ValidRun h g (toState { stackInput := stack, mapInEdgeNum := num }) := by
      unfold toState
      rwa [append_nil]
    obtain ⟨t, ht⟩ := bfs_returns hg hbfs rfl hfuel
    obtain ⟨u, hu⟩ := dfs_returns hg reverse hvalid rfl hfuel
    simp only [ht, hu, Option.map_some]
    split <;> exact ⟨_, rfl⟩

/-- The edges ahead lead from node to node of the graph. -/
theorem ahead_inside (hg : Sortable h g) (hu : u ∈ (h.graph g).nodes) (huv : h.Ahead u v) : v ∈ (h.graph g).nodes := by
  obtain ⟨a, b, hb, -, rfl, rfl, -⟩ := huv
  exact hg.closed.inside a hu b hb

/-- Where loops are closed, an order found has the source of an edge ahead before its target. -/
theorem source_before (hg : Sortable h g) (hloops : h.LoopsClosed g) (hs : ValidRun h g s)
    {pre post : List NodeId} (hu : u ∈ (h.graph g).nodes) (huv : h.Ahead u v)
    (hsplit : s.visited = pre ++ v :: post) : u ∈ pre := by
  refine hs.ahead_visited (fun u hu v _ => count_targets hg hu v) (fun v hv => ?_) ?_ pre.length pre v post rfl hsplit u hu
    ((linkCount_pos hg.sound (hg.closed.made u hu)).mpr huv)
  · rw [waits_eq hg hv]
    exact ahead_le_getInEdgeSize hg.sound hg.directed hg.closed hg.nodup hv
  · intro w hw v hv hback
    have hpath := hloops w hw v ((linkCount_pos hg.sound (hg.closed.made w hw)).mp hback)
    clear hback
    induction hpath using Relation.ReflTransGen.head_induction_on with
    | refl => exact .refl
    | @head a b hab _ ih => exact .head ⟨hv, (linkCount_pos hg.sound (hg.closed.made a hv)).mpr hab⟩ (ih (ahead_inside hg hv hab))

/-- Where the edges ahead have no cycle and loop links come first, a run that dropped nothing and has nothing pending has
visited every node. -/
theorem all_visited (hg : Sortable h g) (hfirst : ∀ v ∈ (h.graph g).nodes, LoopsFirst h v)
    (hacyclic : ∀ v ∈ (h.graph g).nodes, ¬ Relation.TransGen h.Ahead v v) (hs : ValidRun h g s)
    (hfull : Kahn.Complete (h.graph g).nodes (targets h) (waits h) s) (hend : s.pending = []) :
    s.visited.Perm (h.graph g).nodes := by
  have hall := hfull.all_visited hg.nodup (fun u hu v _ => count_targets hg hu v) (fun v hv => ?_) ?_ hs hend
  · refine (perm_ext_iff_of_nodup hs.nodup.of_append_left hg.nodup).mpr fun v => ⟨fun hv => ?_, hall v⟩
    exact hs.subset (mem_append_left _ hv)
  · rw [waits_eq hg hv]
    exact getInEdgeSize_le_ahead hg.sound hg.directed hg.closed hg.nodup hv (hfirst v hv)
  · intro v hcycle
    have hv : v ∈ (h.graph g).nodes := by
      obtain ⟨w, ⟨⟨hv, -⟩, -⟩, -⟩ := Relation.TransGen.head'_iff.mp hcycle
      exact hv
    exact hacyclic v hv (Relation.TransGen.mono
      (fun a b hab => (linkCount_pos hg.sound (hg.closed.made a hab.1.1)).mp hab.2) v v hcycle)

/-! ## Nodes listed repeatedly -/

/-- An order found lists no node more often than the graph does, where no node takes as many arrivals as a counter has
values. -/
theorem sortedNodes_subperm (hsize : ∀ v ∈ (h.graph g).nodes, Kahn.arrivals (targets h) (h.graph g).nodes v < uint32Size)
    (hs : sortedNodes h fuel runMode reverse g = some (some vec)) : vec.Subperm (h.graph g).nodes := by
  have hvisit : ∀ s t, Kahn.Listed uint32Size (h.graph g).nodes (targets h) (waits h) s →
      Kahn.Visit uint32Size (targets h) s t → Kahn.Listed uint32Size (h.graph g).nodes (targets h) (waits h) t :=
    fun s t hs hv => hs.visit (fun v _ => waits_lt h v) hsize hv
  have hvisited : ∀ {s : Kahn.State NodeId}, Kahn.Listed uint32Size (h.graph g).nodes (targets h) (waits h) s →
      s.visited.Subperm (h.graph g).nodes := fun hl => (sublist_append_left _ _).subperm.trans hl.subperm
  unfold sortedNodes bfsTopologicalSorting dfsTopologicalSorting at hs
  cases hstart : sortNodes h runMode g with
  | none => simp [hstart] at hs
  | some p =>
    obtain ⟨stack, num⟩ := p
    obtain ⟨hperm, rfl⟩ := sortNodes_spec hstart
    have hfirst : Kahn.Listed uint32Size (h.graph g).nodes (targets h) (waits h)
        ⟨[], stack, Kahn.countersOf uint32Size (h.graph g).nodes (waits h) fun _ => 0⟩ := by
      refine Kahn.listed_start (hperm.subperm.trans filter_sublist.subperm) fun v hv => ?_
      simpa using (mem_filter.mp (hperm.mem_iff.mp hv)).2
    simp only [hstart] at hs
    split at hs
    · obtain ⟨t, ht, heq⟩ := Option.map_eq_some_iff.mp hs
      obtain rfl := Option.some.inj heq
      have hinv := loop_invariant
        (P := fun s => Kahn.Listed uint32Size (h.graph g).nodes (targets h) (waits h) (toState s))
        (fun s t hs hstep => hvisit _ _ hs (bfsVisit_visit hstep)) fuel _ t (by unfold toState; rwa [append_nil]) ht
      exact hvisited hinv.1
    · obtain ⟨t, ht, heq⟩ := Option.map_eq_some_iff.mp hs
      obtain rfl := Option.some.inj heq
      have hinv := loop_invariant
        (P := Kahn.Listed uint32Size (h.graph g).nodes (targets h) (waits h))
        (fun s t hs hstep => hvisit _ _ hs (dfsVisit_full hstep).visit) fuel _ t hfirst ht
      exact hvisited hinv.1

/-- So a sort that succeeds lists the nodes in another order. -/
theorem sort_perm {h' : Heap} (hsize : ∀ v ∈ (h.graph g).nodes, Kahn.arrivals (targets h) (h.graph g).nodes v < uint32Size)
    (hlength : (h.graph g).directNodesSize = (h.graph g).nodes.length)
    (hr : topologicalSortingGraph fuel runMode reverse g h = some (true, h')) :
    ∃ vec, vec.Perm (h.graph g).nodes ∧ h' = listNodes g vec (setIds vec 0 h) := by
  simp only [topologicalSortingGraph, Cmd.get_bind_apply] at hr
  cases hs : sortedNodes h fuel runMode reverse g with
  | none => simp [hs] at hr
  | some r =>
    cases r with
    | none => simp [hs] at hr
    | some vec =>
      by_cases hlen : vec.length = (h.graph g).directNodesSize
      · refine ⟨vec, (sortedNodes_subperm hsize hs).perm_of_length_le ?_, ?_⟩
        · exact Nat.le_of_eq (hlen.trans hlength).symm
        · simpa [hs, hlen, eq_comm] using hr
      · simp [hs, hlen] at hr

/-! ## The ids -/

@[simp] theorem setIds_node (l : List NodeId) (i : Nat) (h : Heap) : (setIds l i h).node = h.node := by
  induction l generalizing i h with
  | nil => rfl
  | cons n l ih => exact (ih _ _).trans rfl

@[simp] theorem setIds_graph (l : List NodeId) (i : Nat) (h : Heap) : (setIds l i h).graph = h.graph := by
  induction l generalizing i h with
  | nil => rfl
  | cons n l ih => exact (ih _ _).trans rfl

theorem setIds_other (l : List NodeId) (i : Nat) (h : Heap) {o : OpId} (ho : ∀ n ∈ l, (h.node n).op ≠ o) :
    (setIds l i h).op o = h.op o := by
  induction l generalizing i h with
  | nil => rfl
  | cons n l ih =>
    have hne : o ≠ (h.node n).op := (ho n mem_cons_self).symm
    calc (setIds (n :: l) i h).op o = (h.setOp (h.node n).op ((h.desc n).setId i)).op o :=
          ih (i + 1) (h.setOp (h.node n).op ((h.desc n).setId i)) fun m hm => ho m (mem_cons_of_mem n hm)
      _ = h.op o := by rw [Heap.setOp_op, if_neg hne]

/-- Where no two nodes share a descriptor, each gets its position. -/
theorem setIds_id (l : List NodeId) (i : Nat) (h : Heap) (hops : (l.map fun n => (h.node n).op).Nodup) :
    ∀ (j : Nat) v, l[j]? = some v → ((setIds l i h).desc v).getId = i + j := by
  induction l generalizing i h with
  | nil =>
    intro j v hv
    simp at hv
  | cons n l ih =>
    intro j v hv
    rw [map_cons, nodup_cons] at hops
    let h' := h.setOp (h.node n).op ((h.desc n).setId i)
    cases j with
    | zero =>
      obtain rfl : n = v := by simpa using hv
      have hother : ∀ m ∈ l, (h'.node m).op ≠ (h.node n).op := fun m hm he => hops.1 (List.mem_map.mpr ⟨m, hm, he⟩)
      calc ((setIds (n :: l) i h).desc n).getId = ((setIds l (i + 1) h').op (h.node n).op).getId := by
            unfold Heap.desc
            rw [setIds_node]
            rfl
        _ = (h'.op (h.node n).op).getId := by rw [setIds_other l (i + 1) h' hother]
        _ = i + (0 : Nat) := by simp [h', OpDesc.getId, OpDesc.setId]
    | succ j =>
      have hrest : ((setIds (n :: l) i h).desc v).getId = (i + 1 : Nat) + j := ih (i + 1) h' hops.2 j v (by simpa using hv)
      omega

end SortOrder

end Metadef
