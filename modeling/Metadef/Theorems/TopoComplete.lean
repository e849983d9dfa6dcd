import Metadef.Theorems.TopoSound

/-!
# Sorting is complete

A graph whose edges have no cycle is sorted, whichever loop runs: always by the depth-first loop, and by the breadth-first
loop exactly when no visit leaves two nodes of one name without inputs.
-/

namespace Metadef

open List

open Heap ComputeGraph SortRuns SortOrder EdgeCounts TopoSoundAux

/-- Every sort in which no isolated node is found succeeds, in either mode. -/
def Heap.SortsInBothModes (h : Heap) (g : GraphId) : Prop :=
  ∀ fuel runMode dfsReverse, (h.graph g).nodes.length < fuel → NoIsolated h runMode g →
    ∃ h', topologicalSortingGraph fuel runMode dfsReverse g h = some (true, h')

/-- The states of a breadth-first run in which a multimap of names stands in for the map. -/
inductive Heap.LosslessState (h : Heap) (g : GraphId) : BfsState → Prop where
  | start {stackInput : List NodeId} {mapInEdgeNum : InEdgeNum} (hs : sortNodes h none g = some (stackInput, mapInEdgeNum)) :
    LosslessState h g { stackInput, mapInEdgeNum }
  | visit {s t : BfsState} (hs : LosslessState h g s) (hv : losslessVisit h s = some t) : LosslessState h g t

/-- In the breadth-first run in which nothing is lost, no visit leaves two nodes of one name without inputs. -/
def Heap.NamesApart (h : Heap) (g : GraphId) : Prop := ∀ s, h.LosslessState g s → NamesApartAt h s

namespace TopoCompleteAux

variable {h : Heap} {g : GraphId} {fuel : Nat} {runMode : Option Int} {dfsReverse : Bool}

/-- What a run that lists all nodes needs: loop links come first, and the edges ahead have no cycle. -/
structure Acyclic (h : Heap) (g : GraphId) : Prop where
  loopsFirst : ∀ v ∈ (h.graph g).nodes, LoopsFirst h v
  acyclic : ∀ v ∈ (h.graph g).nodes, ¬ Relation.TransGen h.Ahead v v

/-- A sort that found all nodes succeeds. -/
theorem sort_of_all (hsize : (h.graph g).directNodesSize = (h.graph g).nodes.length) (vec : List NodeId)
    (hv : sortedNodes h fuel runMode dfsReverse g = some (some vec)) (hperm : vec.Perm (h.graph g).nodes) :
    ∃ h', topologicalSortingGraph fuel runMode dfsReverse g h = some (true, h') := by
  rw [sort_of_found hv, if_pos (hperm.length_eq.trans hsize.symm)]
  exact ⟨_, rfl⟩

/-- The depth-first loop sorts. -/
theorem dfs_sorts (hg : Sortable h g) (ha : Acyclic h g)
    (hsize : (h.graph g).directNodesSize = (h.graph g).nodes.length) (hfuel : (h.graph g).nodes.length < fuel)
    (hmode : isUseBFS runMode = false) (hn : NoIsolated h runMode g) :
    ∃ h', topologicalSortingGraph fuel runMode dfsReverse g h = some (true, h') := by
  obtain ⟨stack, num, hstart⟩ := sortNodes_none (h := h) g
  have hstart' : sortNodes h runMode g = some (stack, num) := (sortNodes_eq hn).trans hstart
  obtain ⟨hvalid, hfull⟩ := start_spec hg hstart'
  obtain ⟨t, ht⟩ := dfs_returns hg dfsReverse hvalid rfl hfuel
  obtain ⟨hvalid', hfull', hend⟩ := dfs_spec hg hvalid hfull ht
  refine sort_of_all hsize t.visited ?_ (all_visited hg ha.loopsFirst ha.acyclic hvalid' hfull' hend)
  simp [sortedNodes, hmode, dfsTopologicalSorting, hstart', ht]

variable {stackInput : List NodeId} {mapInEdgeNum : InEdgeNum} {s t : BfsState}

/-- The first state of a breadth-first run. -/
theorem validRun_first (hg : Sortable h g) (hstart : sortNodes h none g = some (stackInput, mapInEdgeNum)) :
    ValidRun h g (toState { stackInput, mapInEdgeNum }) ∧
      Kahn.Complete (h.graph g).nodes (targets h) (waits h) (toState { stackInput, mapInEdgeNum }) := by
  unfold toState
  rw [append_nil]
  exact start_spec hg hstart

/-- Where names are apart the breadth-first loop drops nothing. -/
theorem bfs_complete (hg : Sortable h g) (hnames : h.NamesApart g) (hs : h.LosslessState g s)
    (hvalid : ValidRun h g (toState s)) (hfull : Kahn.Complete (h.graph g).nodes (targets h) (waits h) (toState s))
    (hloop : Run.loop (bfsVisit h) fuel s = some t) :
    Kahn.Complete (h.graph g).nodes (targets h) (waits h) (toState t) := by
  have hinv := Run.loop_invariant
    (P := fun s => h.LosslessState g s ∧ ValidRun h g (toState s) ∧
      Kahn.Complete (h.graph g).nodes (targets h) (waits h) (toState s)) ?_ fuel s t ⟨hs, hvalid, hfull⟩ hloop
  · exact hinv.1.2.2
  · rintro s t ⟨hs, hvalid, hfull⟩ hstep
    have hlossless : losslessVisit h s = some t := (bfsVisit_lossless (hnames s hs)).symm.trans hstep
    have hvisit := losslessVisit_full hlossless
    exact ⟨.visit hs hlossless, validRun_visit hg hvalid hvisit.visit,
      hfull.fullVisit (fun v _ => waits_lt h v) (fun _ hv => arrivals_lt hg hv) hvalid hvisit⟩

/-- A breadth-first run that visits all nodes meets no two nodes of one name at a visit: the map would drop one of them,
and no later visit could bring it back. -/
theorem namesApartAt_of_all (hg : Sortable h g) (hs : ValidRun h g (toState s))
    (hloop : Run.loop (bfsVisit h) fuel s = some t) (hall : ∀ v ∈ (h.graph g).nodes, v ∈ t.nodeVec) :
    NamesApartAt h s := by
  intro node stack stackInput hp
  by_contra hclash
  have hk : ∀ v ∈ (h.graph g).nodes, waits h v < uint32Size := fun v _ => waits_lt h v
  have hsize : ∀ v ∈ (h.graph g).nodes, Kahn.arrivals (targets h) (h.graph g).nodes v < uint32Size :=
    fun _ hv => arrivals_lt hg hv
  obtain ⟨-, hnodup, hmem⟩ := hs.listed.release hk hsize (pop_perm hp)
  obtain ⟨v, hv, hlost⟩ := OrderedMap.exists_not_mem_insertAll hnodup hclash
  have hfresh := hs.listed.released_fresh hk hsize (pop_perm hp) hv
  obtain ⟨hvN, -, hready⟩ := (hmem v).mp hv
  cases fuel with
  | zero => cases hloop
  | succ fuel =>
    obtain ⟨u, hu⟩ : ∃ u, bfsVisit h s = some u := by
      unfold bfsVisit
      rw [hp]
      exact ⟨_, rfl⟩
    obtain ⟨node', stack', stackInput', hp', hvec, -, hpending⟩ := bfsVisit_cases hu
    obtain ⟨rfl, rfl, rfl⟩ : node = node' ∧ stack = stack' ∧ stackInput = stackInput' := by simpa using hp.symm.trans hp'
    have hrest : Run.loop (bfsVisit h) fuel u = some t := by
      unfold Run.loop at hloop
      rwa [hu] at hloop
    have hnot : v ∉ (toState u).visited ++ (toState u).pending := by
      have hold : v ∉ (toState s).visited ++ node :: (stackInput ++ stack) := fun hin =>
        hfresh (((pop_perm hp).append_left _).mem_iff.mpr hin)
      simp only [mem_append, mem_cons, not_or] at hold
      intro hin
      rcases mem_append.mp hin with hin | hin
      · rw [show (toState u).visited = s.nodeVec ++ [node] from hvec] at hin
        rcases mem_append.mp hin with hin | hin
        · exact hold.1 hin
        · exact hold.2.1 (mem_singleton.mp hin)
      · rcases mem_append.mp (hpending.mem_iff.mp hin) with hin | hin
        · rcases mem_append.mp hin with hin | hin
          · exact hold.2.2.1 hin
          · exact hold.2.2.2 hin
        · exact hlost hin
    have hready' : waits h v ≤ Kahn.arrivals (targets h) (toState u).visited v := by
      rw [show (toState u).visited = s.nodeVec ++ [node] from hvec]
      exact hready
    have hinv := Run.loop_invariant
      (P := fun s => ValidRun h g (toState s) ∧ waits h v ≤ Kahn.arrivals (targets h) (toState s).visited v ∧
        v ∉ (toState s).visited ++ (toState s).pending) ?_ fuel u t
      ⟨validRun_visit hg hs (bfsVisit_visit hu), hready', hnot⟩ hrest
    · exact hinv.1.2.2 (mem_append_left _ (hall v hvN))
    · rintro s t ⟨hs, hready, hnot⟩ hstep
      have hvisit := bfsVisit_visit hstep
      exact ⟨validRun_visit hg hs hvisit, Kahn.lost_visit hk hsize hs hvisit hready hnot⟩

/-- The states of the lossless run are passed by a breadth-first run that visits all nodes. -/
theorem namesApart_of_all (hg : Sortable h g) (hstart : sortNodes h none g = some (stackInput, mapInEdgeNum))
    (hloop : Run.loop (bfsVisit h) fuel { stackInput, mapInEdgeNum } = some t)
    (hall : ∀ v ∈ (h.graph g).nodes, v ∈ t.nodeVec) : h.NamesApart g := by
  have hpassed : ∀ s, h.LosslessState g s →
      ValidRun h g (toState s) ∧ ∃ fuel, Run.loop (bfsVisit h) fuel s = some t := by
    intro s hs
    induction hs with
    | start hs =>
      obtain ⟨rfl, rfl⟩ := Prod.mk.inj (Option.some.inj (hs.symm.trans hstart))
      exact ⟨(validRun_first hg hstart).1, fuel, hloop⟩
    | @visit s u _ hv ih =>
      obtain ⟨hvalid, n, hn⟩ := ih
      have hstep : bfsVisit h s = some u := (bfsVisit_lossless (namesApartAt_of_all hg hvalid hn hall)).trans hv
      refine ⟨validRun_visit hg hvalid (bfsVisit_visit hstep), ?_⟩
      cases n with
      | zero => cases hn
      | succ n =>
        unfold Run.loop at hn
        rw [hstep] at hn
        exact ⟨n, hn⟩
  intro s hs
  obtain ⟨hvalid, n, hn⟩ := hpassed s hs
  exact namesApartAt_of_all hg hvalid hn hall

/-- Edges that lead from lower to higher nodes have no cycle. -/
theorem acyclic_of_lt (hs : h.Sound) (hc : h.ClosedGraph g)
    (hlt : ∀ u ∈ (h.graph g).nodes, ∀ a ∈ h.outAnchors u, ∀ b ∈ h.peers a, u < h.owner b) :
    ∀ n ∈ (h.graph g).nodes, ¬ Relation.TransGen h.Ahead n n := by
  have hstep : ∀ u ∈ (h.graph g).nodes, ∀ v, h.Ahead u v → v ∈ (h.graph g).nodes ∧ u < v := by
    intro u hu v huv
    obtain ⟨a, ha, b, hb, rfl, -⟩ := (edge_iff hs (hc.made u hu)).mp huv
    have howner : h.owner a = u := ((mem_outAnchors hs.laid (hc.made u hu)).mp ha).2.1
    exact ⟨hc.inside a (howner ▸ hu) b hb, hlt u hu a ha b hb⟩
  have hpath : ∀ u ∈ (h.graph g).nodes, ∀ v, Relation.TransGen h.Ahead u v → v ∈ (h.graph g).nodes ∧ u < v := by
    intro u hu v huv
    induction huv with
    | single huv => exact hstep u hu _ huv
    | tail _ hvw ih =>
      obtain ⟨hv, hlt⟩ := ih
      obtain ⟨hw, hlt'⟩ := hstep _ hv _ hvw
      exact ⟨hw, Nat.lt_trans hlt hlt'⟩
  intro n hn hcycle
  exact Nat.lt_irrefl n (hpath n hn n hcycle).2

end TopoCompleteAux

open TopoCompleteAux

/-- A graph whose edges have no cycle is sorted by the depth-first loop, and by both loops exactly when names are apart. -/
theorem sorts_in_both_modes_iff (h : Heap) (g : GraphId) (hs : h.Sound) (hd : h.Directed) (hc : h.ClosedGraph g)
    (hsize : (h.graph g).directNodesSize = (h.graph g).nodes.length) (hnodup : (h.graph g).nodes.Nodup)
    (hfan : ∀ n ∈ (h.graph g).nodes, h.inLinks n < uint32Size) (hfirst : ∀ n ∈ (h.graph g).nodes, LoopsFirst h n)
    (hacyclic : ∀ n ∈ (h.graph g).nodes, ¬ Relation.TransGen h.Ahead n n) :
    (∀ fuel runMode dfsReverse, (h.graph g).nodes.length < fuel → isUseBFS runMode = false → NoIsolated h runMode g →
      ∃ h', topologicalSortingGraph fuel runMode dfsReverse g h = some (true, h')) ∧
    (h.SortsInBothModes g ↔ h.NamesApart g) := by
  have hg : Sortable h g := ⟨hs, hd, hc, hnodup, hfan⟩
  have ha : Acyclic h g := ⟨hfirst, hacyclic⟩
  refine ⟨fun fuel runMode dfsReverse hfuel hmode hn => dfs_sorts hg ha hsize hfuel hmode hn, fun hsorts => ?_,
    fun hnames fuel runMode dfsReverse hfuel hn => ?_⟩
  · obtain ⟨fuel, hfuel⟩ : ∃ fuel, (h.graph g).nodes.length < fuel := ⟨_, Nat.lt_succ_self _⟩
    obtain ⟨h', hr⟩ := hsorts fuel (some GraphRunMode.train) true hfuel (by intro hv; cases hv)
    obtain ⟨stackInput, mapInEdgeNum, hstart⟩ := sortNodes_none (h := h) g
    have hstart' : sortNodes h (some GraphRunMode.train) g = some (stackInput, mapInEdgeNum) :=
      (sortNodes_eq (by intro hv; cases hv)).trans hstart
    obtain ⟨hvalid, -⟩ := validRun_first hg hstart
    obtain ⟨t, ht⟩ := bfs_returns hg hvalid rfl hfuel
    have hfound : sortedNodes h fuel (some GraphRunMode.train) true g = some (some t.nodeVec) := by
      simp [sortedNodes, isUseBFS, GraphRunMode.train, bfsTopologicalSorting] at hstart' ⊢
      simp [hstart', ht]
    refine namesApart_of_all hg hstart ht ?_
    rw [sort_of_found hfound] at hr
    obtain ⟨hvalid', -⟩ := bfs_spec hg hvalid ht
    split at hr
    · rename_i hlen
      have hsub : t.nodeVec ⊆ (h.graph g).nodes := fun v hv => hvalid'.subset (mem_append_left _ hv)
      have hperm := (hvalid'.nodup.of_append_left.subperm hsub).perm_of_length_le (Nat.le_of_eq (hlen.trans hsize).symm)
      exact fun v hv => hperm.mem_iff.mpr hv
    · cases hr
  · cases hmode : isUseBFS runMode with
    | false => exact dfs_sorts hg ha hsize hfuel hmode hn
    | true =>
      obtain ⟨stackInput, mapInEdgeNum, hstart⟩ := sortNodes_none (h := h) g
      have hstart' : sortNodes h runMode g = some (stackInput, mapInEdgeNum) := (sortNodes_eq hn).trans hstart
      obtain ⟨hvalid, hfull⟩ := validRun_first hg hstart
      obtain ⟨t, ht⟩ := bfs_returns hg hvalid rfl hfuel
      obtain ⟨hvalid', hend⟩ := bfs_spec hg hvalid ht
      have hfull' := bfs_complete hg hnames (.start hstart) hvalid hfull ht
      refine sort_of_all hsize t.nodeVec ?_ (all_visited hg hfirst hacyclic hvalid' hfull' hend)
      simp [sortedNodes, hmode, bfsTopologicalSorting, hstart', ht]

namespace TopoCompleteWitness

/-- An input of the graph feeds two nodes of one name. -/
def forking : List LinkCall :=
  [.newOp { opDef := { name := "x", type := "Data" }, outputsDesc := [{}] }, .newNode 0,
    .newOp { opDef := { name := "y", type := "Relu" }, inputsDesc := [{}] }, .newNode 1,
    .newOp { opDef := { name := "y", type := "Relu" }, inputsDesc := [{}] }, .newNode 2,
    .addDataEdge (some 2) (some 5), .addDataEdge (some 2) (some 8)]

/-- The three nodes added to a graph. -/
def fork : Heap := GraphSteps.addAll 0 ((LinkCall.runAll forking).getD .empty) [0, 1, 2]

theorem facts_fork : fork.Sound ∧ fork.Directed ∧ fork.ClosedGraph 0 ∧
    ∀ n ∈ (fork.graph 0).nodes, ¬ Relation.TransGen fork.Ahead n n := by
  have hs : fork.Sound := GraphSteps.sound_addAll 0 _ (sound_runAll forking _ (by decide +kernel) rfl)
  have hc : fork.ClosedGraph 0 := ⟨by decide +kernel, fun a ha b hb => hs.forall_peers
    (P := fun a b => fork.owner a ∈ (fork.graph 0).nodes → fork.owner b ∈ (fork.graph 0).nodes) (by decide +kernel) a b hb ha⟩
  exact ⟨hs, hs.forall_peers (by decide +kernel), hc, acyclic_of_lt hs hc (by decide +kernel)⟩

theorem sorts_in_both_modes_iff_fork :
    (∀ fuel runMode dfsReverse, (fork.graph 0).nodes.length < fuel → isUseBFS runMode = false → NoIsolated fork runMode 0 →
      ∃ h', topologicalSortingGraph fuel runMode dfsReverse 0 fork = some (true, h')) ∧
    (fork.SortsInBothModes 0 ↔ fork.NamesApart 0) :=
  sorts_in_both_modes_iff fork 0 facts_fork.1 facts_fork.2.1 facts_fork.2.2.1 (by decide +kernel) (by decide +kernel)
    (by decide +kernel) (by decide +kernel) facts_fork.2.2.2

/-- The breadth-first loop visits one of the two nodes of one name and reports a cycle. -/
theorem sorts_in_both_modes_false :
    ¬ ∀ (h : Heap) (g : GraphId), h.Sound → h.Directed → h.ClosedGraph g →
      (h.graph g).directNodesSize = (h.graph g).nodes.length → (h.graph g).nodes.Nodup →
      (∀ n ∈ (h.graph g).nodes, ¬ Relation.TransGen h.Ahead n n) → h.SortsInBothModes g := by
  intro hall
  obtain ⟨hs, hd, hc, hacyclic⟩ := facts_fork
  have hsorts := hall fork 0 hs hd hc (by decide +kernel) (by decide +kernel) hacyclic
  obtain ⟨h', hr⟩ := hsorts 4 (some 1) true (by decide +kernel) (by intro hv; cases hv)
  have hfound : sortedNodes fork 4 (some 1) true 0 = some (some [0, 1]) := by decide +kernel
  rw [sort_of_found hfound, if_neg (by decide +kernel)] at hr
  cases hr

end TopoCompleteWitness

end Metadef
