import Metadef.Lemmas.GraphRemoval
import Metadef.Theorems.Isolation

/-!
# What isolating a node of a graph does to the order

`ComputeGraph::IsolateNode` has one source take over what comes after the node. The theorem says which edges there are afterwards,
and so between which nodes an order is lost.
-/

namespace Metadef

open Relation IsolateAux TakingAux

namespace Heap

/-- A node comes before another by a link other than one by which a constant feeds a data input. -/
def Precedes (h : Heap) (p n : NodeId) : Prop :=
  h.Edge (fun a b => !(Node.isConst h (h.owner a) && h.kind b = .inData)) p n

/-- What an isolation in a graph should do: the node is left without links, and what comes after it is still reached from what comes
before it. -/
structure KeepsDependencies (h h' : Heap) (n : NodeId) : Prop where
  unlinked : ∀ a, h'.owner a = n → h'.peers a = []
  reach : ∀ p s, h.Precedes p n → h.AnyEdge n s → TransGen h'.AnyEdge p s

/-- Nodes other than one and constants are still reached from one another. -/
def KeepsOrders (h h' : Heap) (n : NodeId) : Prop :=
  ∀ u v, u ≠ n → v ≠ n → Node.isConst h u = false → Node.isConst h v = false → TransGen h.AnyEdge u v → TransGen h'.AnyEdge u v

/-- The edges past a node whose data inputs have the peers given: those away from it, those of the nodes that take over, and those
of the links it is left with. -/
def EdgesPast (h : Heap) (n : NodeId) (fed : AnchorId → List AnchorId) (u v : NodeId) : Prop :=
  (u ≠ n ∧ v ≠ n ∧ (h.AnyEdge u v ∨ TakingAux.TakesOver h n fed u v)) ∨
  ∃ a, h.owner a = n ∧ ∃ b ∈ leftAt h fed a,
    ((h.kind a).isIn = true ∧ u = h.owner b ∧ v = n) ∨ ((h.kind a).isIn = false ∧ u = n ∧ v = h.owner b)

end Heap

namespace TakingAux

variable {h h' : Heap} {n : NodeId} {A : NodeId → NodeId → Prop} {fed own own' : AnchorId → List AnchorId}

/-- The edges an isolation leaves. -/
theorem edges_after (ht : Track h n A own' h') (hA : ∀ u v, A u v ↔ TakesOver h n fed u v)
    (hown : ∀ a, h.owner a = n → ∀ b, b ∈ own' a ↔ b ∈ leftAt h fed a) : h'.AnyEdge = h.EdgesPast n fed := by
  have hleft : ∀ a, h.owner a = n → ∀ b, b ∈ h'.peers a ↔ b ∈ leftAt h fed a := fun a ha b => ht.own a ha ▸ hown a ha b
  have hd' : h'.Directed := by
    obtain ⟨R, hi, -⟩ := ht.pairs
    exact hi.directed
  funext u v
  refine propext ⟨?_, ?_⟩
  · intro hedge
    by_cases hu : u = n
    · obtain ⟨a, b, hb, hk, ha, hbv, -⟩ := hedge
      rw [ht.layout.kind] at hk
      rw [ht.layout.owner] at ha hbv
      exact .inr ⟨a, ha.trans hu, b, (hleft a (ha.trans hu) b).mp hb, .inr ⟨hk, hu, hbv.symm⟩⟩
    · by_cases hv : v = n
      · -- the link is seen from the input of the node
        obtain ⟨a, b, hb, hk, ha, hbv, -⟩ := hedge
        have hin : (h.kind b).isIn = true := by
          rw [← ht.layout.kind, hd' a b hb, hk]
          rfl
        rw [ht.layout.owner] at ha hbv
        have hbn := hbv.trans hv
        exact .inr ⟨b, hbn, a, (hleft b hbn a).mp (ht.sound.symm.mem hb), .inl ⟨hin, ha.symm, hv⟩⟩
      · exact .inl ⟨hu, hv, ((ht.away hu hv).mp hedge).imp_right (hA u v).mp⟩
  · rintro (⟨hu, hv, hedge⟩ | ⟨a, ha, b, hb, hends⟩)
    · exact (ht.away hu hv).mpr (hedge.imp_right (hA u v).mpr)
    · obtain ⟨hout, hin⟩ := edge_of_peer ht.sound hd' ((hleft a ha b).mpr hb)
      rw [ht.layout.kind, ht.layout.owner, ht.layout.owner, ha] at hout hin
      rcases hends with ⟨hk, rfl, rfl⟩ | ⟨hk, rfl, rfl⟩
      · exact hin hk
      · exact hout hk

/-- What an isolation leaves of the node's links and of the paths past it, by what there is before. -/
theorem keepsDependencies_iff (hs : h.Sound) (hd : h.Directed) (hloop : NoLoop h n) (hn : n < h.nodeCount)
    (hr : ComputeGraph.isolateNode n h = some (true, h')) : h.KeepsDependencies h' n ↔
      (∀ a, h.owner a = n → leftAt h h.peers a = []) ∧
        ∀ p s, h.Precedes p n → h.AnyEdge n s → TransGen (h.EdgesPast n h.peers) p s := by
  obtain ⟨own', ht, hown⟩ := (isolateNode_succeeds hs hd hloop hn (track_start hs hd n) ⟨rfl, fun _ _ => rfl⟩).1 h' hr
  rw [← edges_after ht (fun _ _ => Iff.of_eq (false_or _)) hown]
  have hleft : ∀ a, h.owner a = n → (h'.peers a = [] ↔ leftAt h h.peers a = []) := fun a ha => by
    simp only [List.eq_nil_iff_forall_not_mem, ht.own a ha, hown a ha]
  constructor
  · exact fun hk => ⟨fun a ha => (hleft a ha).mp (hk.unlinked a ((ht.layout.owner a).trans ha)), hk.reach⟩
  · exact fun ⟨hunlinked, hreach⟩ => ⟨fun a ha =>
      have ha' := (ht.layout.owner a).symm.trans ha
      (hleft a ha').mpr (hunlinked a ha'), hreach⟩

/-- What a removal leaves, whose isolation finds no constants at the data inputs. -/
theorem removeNode_succeeded (hs : h.Sound) (hd : h.Directed) (hloop : NoLoop h n) (hn : n < h.nodeCount) {g : GraphId}
    (hr : ComputeGraph.removeNode g (some n) h = some (true, h')) :
    ∃ own', Track h n (fun u v => False ∨ TakesOver h n (constless h) u v) own' h' ∧
      ∀ a, h.owner a = n → ∀ b, b ∈ own' a ↔ b ∈ leftAt h (constless h) a := by
  obtain ⟨m, hm, hrun, -⟩ := removeNode_prepares hs hd hloop hn g
  rw [hrun, removeIsolated] at hr
  obtain ⟨ok, t, ht, hr⟩ := Cmd.bind_eq_some.mp hr
  cases ok with
  | false => simp at hr
  | true =>
    have hkeeps : StillLinked h n (constless h) := by
      refine ⟨?_, fun o ho => ?_⟩
      · rw [constless, if_neg (by rw [(inControl_facts hs hn).2.1]; decide)]
      · rw [constless, if_neg fun hk => ?_]
        have hout := ((Heap.mem_outAnchors hs.laid hn).mp ho).2.2
        rw [hk] at hout
        cases hout
    obtain ⟨own', hown', hown⟩ := (isolateNode_succeeds hs hd hloop hn hm hkeeps).1 t ht
    simp only [Bool.not_true, Bool.false_eq_true, if_false, Cmd.get_bind_apply] at hr
    by_cases hmem : n ∈ (t.graph g).nodes
    · rw [if_neg (not_not.mpr hmem)] at hr
      obtain rfl := (Prod.mk.inj (Option.some.inj hr)).2
      exact ⟨own', hown'.setGraph g _, hown⟩
    · rw [if_pos hmem] at hr
      simp at hr

/-- What a removal keeps of the order of the other nodes. -/
theorem keepsOrders_iff (hself : ¬ TransGen h.AnyEdge n n) (hedges : h'.AnyEdge = h.EdgesPast n fed) : h.KeepsOrders h' n ↔
      ∀ u v, Node.isConst h u = false → Node.isConst h v = false → TransGen h.AnyEdge u n → TransGen h.AnyEdge n v →
        TransGen (h.EdgesPast n fed) u v := by
  rw [← hedges]
  constructor
  · intro hk u v hu hv hun hnv
    refine hk u v ?_ ?_ hu hv (hun.trans hnv)
    · rintro rfl
      exact hself hun
    · rintro rfl
      exact hself hnv
  · intro hpast u v hun hvn hu hv huv
    -- a path either goes past the node, by edges that stay, or through it
    have hold : ∀ a b, a ≠ n → b ≠ n → h.AnyEdge a b → h'.AnyEdge a b := fun a b ha hb hab =>
      hedges ▸ .inl ⟨ha, hb, .inl hab⟩
    rcases Contract.past_or_through hold hun huv hvn with hpath | ⟨hbefore, hbehind⟩
    · exact hpath
    · exact hpast u v hu hv hbefore hbehind

end TakingAux

/-- An isolation in a graph, of a node on no cycle, keeps what the node stands between exactly when no link of the node stays and
each node before it still reaches each behind it past the node or by the edges of the nodes that take over; a removal does when those
reach from every node before it to every node behind it. -/
theorem isolateNode_keeps_iff (h : Heap) (n : NodeId) (hs : h.Sound) (hd : h.Directed) (hself : ¬ TransGen h.AnyEdge n n)
    (hn : n < h.nodeCount) :
    (∀ h', ComputeGraph.isolateNode n h = some (true, h') → (h.KeepsDependencies h' n ↔
      (∀ a, h.owner a = n → leftAt h h.peers a = []) ∧
        ∀ p s, h.Precedes p n → h.AnyEdge n s → TransGen (h.EdgesPast n h.peers) p s)) ∧
    ∀ g h', ComputeGraph.removeNode g (some n) h = some (true, h') → (h.KeepsOrders h' n ↔
      ∀ u v, Node.isConst h u = false → Node.isConst h v = false → TransGen h.AnyEdge u n → TransGen h.AnyEdge n v →
        TransGen (h.EdgesPast n (constless h)) u v) :=
  have hloop := noLoop hs hd hself
  ⟨fun _ hr => keepsDependencies_iff hs hd hloop hn hr, fun _ _ hr =>
    have ⟨_, ht, hown⟩ := removeNode_succeeded hs hd hloop hn hr
    keepsOrders_iff hself (edges_after ht (fun _ _ => Iff.of_eq (false_or _)) hown)⟩

namespace KeptOrderWitness

/-- Two sources feed a node, which feeds another. Control anchors come first. -/
def feeding : List LinkCall :=
  [.newOp { opDef := { name := "a", type := "Data" }, outputsDesc := [{}] }, .newNode 0,
    .newOp { opDef := { name := "b", type := "Data" }, outputsDesc := [{}] }, .newNode 1,
    .newOp { opDef := { name := "n", type := "Add" }, inputsDesc := [{}, {}], outputsDesc := [{}] }, .newNode 2,
    .newOp { opDef := { name := "c", type := "Relu" }, inputsDesc := [{}] }, .newNode 3,
    .addDataEdge (some 2) (some 8), .addDataEdge (some 5) (some 9), .addDataEdge (some 10) (some 13)]

/-- The graph of the four nodes. -/
def twoSources : Heap := GraphSteps.addAll 0 ((LinkCall.runAll feeding).getD .empty) [0, 1, 2, 3]

theorem facts_twoSources : twoSources.Sound ∧ twoSources.Directed ∧ ∀ a, ¬ TransGen twoSources.AnyEdge a a := by
  have hs : twoSources.Sound := GraphSteps.sound_addAll 0 _ (sound_runAll feeding _ (by decide +kernel) rfl)
  exact ⟨hs, hs.forall_peers (by decide +kernel), acyclic_of_lt hs (by decide +kernel)⟩

/-- The edges out of the second source are gone. -/
def sourceLost (h : Heap) : Bool :=
  (List.range h.anchorCount).all fun a => (h.peers a).all fun _ => (h.kind a).isIn || h.owner a ≠ 1

theorem both_lose : (∃ h', ComputeGraph.isolateNode 2 twoSources = some (true, h') ∧ sourceLost h' = true) ∧
    ∃ h', ComputeGraph.removeNode 0 (some 2) twoSources = some (true, h') ∧ sourceLost h' = true :=
  ⟨Cmd.exists_of_any (by decide +kernel), Cmd.exists_of_any (by decide +kernel)⟩

theorem isolateNode_keeps_twoSources : ∃ h₁ h₂, ComputeGraph.isolateNode 2 twoSources = some (true, h₁) ∧
    ComputeGraph.removeNode 0 (some 2) twoSources = some (true, h₂) ∧
    (twoSources.KeepsDependencies h₁ 2 ↔ (∀ a, twoSources.owner a = 2 → leftAt twoSources twoSources.peers a = []) ∧
      ∀ p s, twoSources.Precedes p 2 → twoSources.AnyEdge 2 s → TransGen (twoSources.EdgesPast 2 twoSources.peers) p s) ∧
    (twoSources.KeepsOrders h₂ 2 ↔ ∀ u v, Node.isConst twoSources u = false → Node.isConst twoSources v = false →
      TransGen twoSources.AnyEdge u 2 → TransGen twoSources.AnyEdge 2 v →
        TransGen (twoSources.EdgesPast 2 (constless twoSources)) u v) := by
  obtain ⟨⟨h₁, hr₁, -⟩, h₂, hr₂, -⟩ := both_lose
  obtain ⟨hs, hd, hacyclic⟩ := facts_twoSources
  obtain ⟨hisolate, hremove⟩ := isolateNode_keeps_iff twoSources 2 hs hd (hacyclic 2) (by decide +kernel)
  exact ⟨h₁, h₂, hr₁, hr₂, hisolate h₁ hr₁, hremove 0 h₂ hr₂⟩

/-- Only the first source takes over: the second loses its place before the node's reader. -/
theorem isolateNode_keeps_false :
    (¬ ∀ (h : Heap) (n : NodeId), h.Sound → h.Directed → (∀ a, ¬ TransGen h.AnyEdge a a) → n < h.nodeCount →
      ∀ h', ComputeGraph.isolateNode n h = some (true, h') → h.KeepsDependencies h' n) ∧
    ¬ ∀ (h : Heap) (n : NodeId), h.Sound → h.Directed → (∀ a, ¬ TransGen h.AnyEdge a a) → n < h.nodeCount →
      ∀ g h', ComputeGraph.removeNode g (some n) h = some (true, h') → h.KeepsOrders h' n := by
  obtain ⟨hs, hd, hacyclic⟩ := facts_twoSources
  have hn : 2 < twoSources.nodeCount := by decide +kernel
  have hloop := noLoop hs hd (hacyclic 2)
  have hin : twoSources.Precedes 1 2 := ⟨5, 9, by decide +kernel, by decide +kernel, by decide +kernel, by decide +kernel,
    by decide +kernel⟩
  have hout : twoSources.AnyEdge 2 3 := ⟨10, 13, by decide +kernel, by decide +kernel, by decide +kernel, by decide +kernel, rfl⟩
  have hlost : ∀ {h' : Heap}, h'.Sound → sourceLost h' = true → ¬ TransGen h'.AnyEdge 1 3 := by
    intro h' hs' hnone hpath
    obtain ⟨v, ⟨a, b, hb, hk, ha, -⟩, -⟩ := TransGen.head'_iff.mp hpath
    obtain ⟨hmade, hheld⟩ := hs'.symm.held hs'.peersHeld hb
    have hcount := hs'.laid.made _ hmade _ a hheld
    have hcheck := List.all_eq_true.mp (List.all_eq_true.mp hnone a (List.mem_range.mpr hcount)) b hb
    simp [hk, ha] at hcheck
  refine ⟨fun hall => ?_, fun hall => ?_⟩
  · obtain ⟨h', hr, hnone⟩ := both_lose.1
    obtain ⟨own', ht, -⟩ := (isolateNode_succeeds hs hd hloop hn (track_start hs hd 2) ⟨rfl, fun _ _ => rfl⟩).1 h' hr
    exact hlost ht.sound hnone ((hall twoSources 2 hs hd hacyclic hn h' hr).reach 1 3 hin hout)
  · obtain ⟨h', hr, hnone⟩ := both_lose.2
    obtain ⟨own', ht, -⟩ := removeNode_succeeded hs hd hloop hn hr
    have hpath : TransGen twoSources.AnyEdge 1 3 := .tail (.single ⟨5, 9, by decide +kernel, by decide +kernel, by decide +kernel,
      by decide +kernel, rfl⟩) hout
    exact hlost ht.sound hnone (hall twoSources 2 hs hd hacyclic hn 0 h' hr 1 3 (by decide) (by decide)
      (by decide +kernel) (by decide +kernel) hpath)

end KeptOrderWitness

end Metadef
