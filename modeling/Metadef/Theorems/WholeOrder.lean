import Metadef.Lemmas.NestedGraphs

/-!
# The order of a whole model

A sort of a root graph and its subgraphs that succeeds numbers the nodes of all of them in preorder. A node comes before the
nodes inside it, and these before the nodes it has an edge to, the data edges out of nodes that close a loop apart.
-/

namespace Metadef

open List Cmd GraphSteps

open Heap ComputeGraph SortRuns SortOrder

/-- What a sort that succeeds makes of a model: the walk over its nodes is in preorder, their ids are their places in it, the
nodes inside a node come after it and before those a relation leads to, and the list of subgraphs holds what it held. -/
structure Heap.WholeOrder (h h' : Heap) (g : GraphId) (r : NodeId → NodeId → Prop) (out : List NodeId) : Prop where
  preorder : h'.NodesInOrder g out
  returned : ∀ fuel, out.length < fuel → getAllNodes h' fuel g = some out
  id : ∀ (i : Nat) n, out[i]? = some n → (h'.desc n).getId = i
  inside : ∀ u ∈ out, ∀ below, Preordered (h'.inner g) (h'.inner g u) below → ∀ w ∈ below,
    (h'.desc u).getId < (h'.desc w).getId
  behind : ∀ u ∈ out, ∀ v, r u v → (h'.desc u).getId < (h'.desc v).getId ∧
    ∀ below, Preordered (h'.inner g) (h'.inner g u) below → ∀ w ∈ below, (h'.desc w).getId < (h'.desc v).getId
  registered : (h'.graph g).subGraph.Perm (h.graph g).subGraph

namespace WholeOrderAux

open TopoSoundAux ResortAux NodeWalks NestedAux

variable {h t h' : Heap} {g x : GraphId} {fuel : Nat} {runMode : Option Int} {ok : Bool} {out : List NodeId} {u v w : NodeId}

/-! ## Sorting each graph -/

theorem sortable_reordered (ho : Reordered h t) (hg : Sortable h x) : Sortable t x := by
  refine ⟨hg.sound.of_anchors ho.nodeCount ho.anchorCount ho.anchorsOf ho.anchor, ?_, ⟨fun n hn => ?_, ?_⟩, ?_, fun n hn => ?_⟩
  · intro a b hb
    rw [ho.peers] at hb
    rw [ho.kind]
    exact hg.directed a b hb
  · rw [ho.nodeCount]
    exact hg.closed.made n ((ho.nodes x).mem_iff.mp hn)
  · intro a ha b hb
    rw [ho.peers] at hb
    rw [ho.owner, (ho.nodes x).mem_iff] at ha ⊢
    exact hg.closed.inside a ha b hb
  · exact (ho.nodes x).nodup_iff.mpr hg.nodup
  · have hlinks : t.inLinks n = h.inLinks n := by
      simp only [Heap.inLinks, Heap.inAnchors, ho.anchorsOf, ho.peers]
    rw [hlinks]
    exact hg.fanIn n ((ho.nodes x).mem_iff.mp hn)

theorem loopsClosed_reordered (ho : Reordered h t) (hl : h.LoopsClosed x) : t.LoopsClosed x := by
  intro n hn m hm
  rw [ho.loopEdge] at hm
  rw [ho.ahead]
  exact hl n ((ho.nodes x).mem_iff.mp hn) m hm

/-- The facts about a graph of a model by which a sort of it is sound. -/
structure SortsWell (h : Heap) (x : GraphId) : Prop where
  sortable : Sortable h x
  size : (h.graph x).directNodesSize = (h.graph x).nodes.length
  loops : h.LoopsClosed x
  own : h.OwnDescriptors x

theorem SortsWell.countable (hx : SortsWell h x) : h.Countable x := ⟨hx.size, fun _ hv => arrivals_lt hx.sortable hv⟩

theorem sortsWell_reordered (ho : Reordered h t) (hx : SortsWell h x) : SortsWell t x := by
  refine ⟨sortable_reordered ho hx.sortable, (ho.countable hx.countable).size, loopsClosed_reordered ho hx.loops, ?_⟩
  unfold OwnDescriptors
  rw [((ho.nodes x).map _).nodup_iff, ho.node]
  exact hx.own

/-- The nodes of a list come before those they have an edge to. -/
def InOrder (h : Heap) (l : List NodeId) : Prop :=
  ∀ u ∈ l, ∀ v, h.Ahead u v → ∀ i j : Nat, l[i]? = some u → l[j]? = some v → i < j

/-- A sort that succeeds puts the nodes of the graph in order, and leaves those of the others. -/
theorem sort_inOrder (hx : SortsWell t x) (hr : topologicalSortingGraph fuel runMode false x t = some (true, h')) :
    InOrder t (h'.graph x).nodes ∧ (∀ (i : Nat) n, (h'.graph x).nodes[i]? = some n → (h'.desc n).getId = i) ∧
      ∀ y, y ≠ x → (h'.graph y).nodes = (t.graph y).nodes := by
  have hs : t.SortedFrom h' x := by
    cases hv : sortedNodes t fuel runMode false x with
    | none =>
      simp only [topologicalSortingGraph, get_bind_apply, hv] at hr
      cases hr
    | some r =>
      cases r with
      | none =>
        rw [sort_of_refused hv] at hr
        cases hr
      | some vec =>
        rw [sort_of_found hv] at hr
        split at hr
        · rename_i hlen
          obtain ⟨s, hvalid, rfl⟩ := sortedNodes_valid hx.sortable hv
          obtain ⟨-, rfl⟩ := of_return hr
          exact sortedFrom_listNodes hx.sortable hx.loops hx.own hvalid (hlen.trans hx.size)
        · cases hr
  refine ⟨fun u hu v huv => hs.before u (hs.perm.mem_iff.mp hu) v huv, hs.id, fun y hy => ?_⟩
  obtain ⟨vec, -, rfl⟩ := sort_perm hx.countable.arrivals hx.size hr
  simp [listNodes, hy]

/-- Sorting graphs one after the other puts the nodes of each in order. -/
theorem eachOk_inOrder {l : List GraphId} (hl : ∀ x ∈ l, SortsWell h x) {d : List GraphId} (ho : Reordered h t)
    (hdone : ∀ x ∈ d, InOrder h (t.graph x).nodes)
    (hr : Cmd.eachOk (topologicalSortingGraph fuel runMode false) l t = some (true, h')) :
    ∀ x ∈ d ++ l, InOrder h (h'.graph x).nodes := by
  refine (eachOk_of_true (I := fun d t => Reordered h t ∧ ∀ x ∈ d, InOrder h (t.graph x).nodes) ?_ ⟨ho, hdone⟩ hr).2
  rintro d x t t' hx ⟨ho, hdone⟩ hsort
  have hwell := sortsWell_reordered ho (hl x hx)
  obtain ⟨hin, -, hothers⟩ := sort_inOrder hwell hsort
  refine ⟨ho.trans (reordered_sort hwell.countable hsort), fun y hy => ?_⟩
  by_cases hyx : y = x
  · rw [hyx]
    unfold InOrder at hin ⊢
    rwa [ho.ahead] at hin
  · rw [hothers y hyx]
    refine hdone y ((mem_append.mp hy).resolve_right fun hmem => hyx (mem_singleton.mp hmem))

/-- A sort of a graph that is listed well returns. -/
theorem sort_returns (runMode : Option Int) (hx : SortsWell t x) (hfuel : (t.graph x).nodes.length < fuel) :
    ∃ ok t', topologicalSortingGraph fuel runMode false x t = some (ok, t') := by
  obtain ⟨r, hr⟩ := sortedNodes_returns hx.sortable hfuel runMode false
  cases r with
  | none => exact ⟨_, _, sort_of_refused hr⟩
  | some vec =>
    rw [sort_of_found hr]
    split <;> exact ⟨_, _, rfl⟩

theorem eachOk_returns (runMode : Option Int) {l : List GraphId} (hl : ∀ x ∈ l, SortsWell h x ∧ (h.graph x).nodes.length < fuel) :
    ∀ {t}, Reordered h t → ∃ ok t', Cmd.eachOk (topologicalSortingGraph fuel runMode false) l t = some (ok, t') := by
  induction l with
  | nil => exact fun _ => ⟨true, _, rfl⟩
  | cons x l ih =>
    intro t ho
    obtain ⟨hx, hlen⟩ := hl x mem_cons_self
    have hwell := sortsWell_reordered ho hx
    obtain ⟨ok, t', hr⟩ := sort_returns runMode hwell ((ho.nodes x).length_eq ▸ hlen)
    rw [Cmd.eachOk, bind_of_eq hr]
    cases ok with
    | false => exact ⟨false, t', rfl⟩
    | true => exact ih (fun y hy => hl y (mem_cons_of_mem x hy)) (ho.trans (reordered_sort hwell.countable hr))

/-! ## Places in the walk -/

/-- A node of the walk stands in a row: the nodes of the root, or of the subgraphs of a node of the walk. -/
theorem row_of_mem (ha : t.RegistriesAgree g) (hp : t.NodesInOrder g out) (hu : u ∈ out) :
    ∃ x ∈ g :: (t.graph g).subGraph, u ∈ (t.graph x).nodes ∧ ∃ p q, (t.graph g).nodes = p ++ (t.graph x).nodes ++ q ∨
      ∃ m ∈ out, t.inner g m = p ++ (t.graph x).nodes ++ q := by
  rcases mem_append.mp (hp.perm.mem_iff.mp hu) with hroot | hinner
  · exact ⟨g, mem_cons_self, hroot, [], [], .inl (by simp)⟩
  · obtain ⟨m, hm, hum⟩ := mem_flatMap.mp hinner
    obtain ⟨x, hx, hux⟩ := mem_inner.mp hum
    obtain ⟨xs, ys, hsplit⟩ := append_of_mem hx
    refine ⟨x, mem_cons_of_mem g (registered_of_resolved ha hx), hux, xs.flatMap fun y => (t.graph y).nodes,
      ys.flatMap fun y => (t.graph y).nodes, .inr ⟨m, hm, ?_⟩⟩
    simp [Heap.inner, hsplit]

/-- A node of the walk is followed by the nodes inside it, and these by the nodes it has an edge to. -/
theorem split_walk (ha : t.RegistriesAgree g) (hp : t.NodesInOrder g out) (hu : u ∈ out)
    (hord : ∀ x ∈ g :: (t.graph g).subGraph, InOrder h (t.graph x).nodes)
    (hclosed : ∀ x ∈ g :: (t.graph g).subGraph, ∀ u ∈ (t.graph x).nodes, ∀ v, h.Ahead u v → v ∈ (t.graph x).nodes) :
    ∃ pre below after post, out = pre ++ u :: (below ++ (after ++ post)) ∧ Preordered (t.inner g) (t.inner g u) below ∧
      ∀ v, h.Ahead u v → v ∈ after := by
  obtain ⟨x, hx, hux, p, q, hrow⟩ := row_of_mem ha hp hu
  obtain ⟨a, b, hsplit⟩ := append_of_mem hux
  have heq : p ++ (t.graph x).nodes ++ q = (p ++ a) ++ u :: (b ++ q) := by simp [hsplit]
  rw [heq] at hrow
  obtain ⟨pre, below, after, post, hout, hbelow, hafter⟩ := hp.row hrow
  refine ⟨pre, below, after, post, hout, hbelow, fun v huv => hafter (mem_append_left q ?_)⟩
  obtain ⟨j, hj⟩ := getElem?_of_mem (hclosed x hx u hux v huv)
  have hi : (t.graph x).nodes[a.length]? = some u := by simp [hsplit]
  have hlt := hord x hx u hux v huv a.length j hi hj
  rw [hsplit, getElem?_append_right (Nat.le_of_lt hlt)] at hj
  obtain ⟨k, hk⟩ : ∃ k, j - a.length = k + 1 := ⟨j - a.length - 1, by omega⟩
  rw [hk, getElem?_cons_succ] at hj
  exact mem_of_getElem? hj

/-- Numbers that are places in a list grow along it. -/
theorem places {f : NodeId → Int} (hid : ∀ (i : Nat) n, out[i]? = some n → f n = i) {pre below after post : List NodeId}
    (hout : out = pre ++ u :: (below ++ (after ++ post))) :
    (∀ w ∈ below, f u < f w) ∧ ∀ v ∈ after, f u < f v ∧ ∀ w ∈ below, f w < f v := by
  have hplace : ∀ a n b, out = a ++ n :: b → f n = a.length := fun a n b he => hid _ _ (by simp [he])
  have hu : f u = pre.length := hplace _ _ _ hout
  have hbelow : ∀ w ∈ below, (pre.length : Int) < f w ∧ f w ≤ pre.length + below.length := by
    intro w hw
    obtain ⟨b, c, rfl⟩ := append_of_mem hw
    have hw := hplace (pre ++ u :: b) w (c ++ (after ++ post)) (by simp [hout])
    simp only [length_append, length_cons] at hw ⊢
    omega
  refine ⟨fun w hw => hu ▸ (hbelow w hw).1, fun v hv => ?_⟩
  obtain ⟨b, c, rfl⟩ := append_of_mem hv
  have hv := hplace (pre ++ u :: (below ++ b)) v (c ++ post) (by simp [hout])
  simp only [length_append, length_cons] at hv
  refine ⟨by omega, fun w hw => ?_⟩
  have := (hbelow w hw).2
  omega

/-- A heap in which the graphs of a model are in order, and the nodes are numbered by their places in the walk. -/
theorem wholeOrder_of (ho : Reordered h t) (hwell : ∀ x ∈ g :: (h.graph g).subGraph, SortsWell h x) (hm : h.NestedModel g)
    (hord : ∀ x ∈ g :: (h.graph g).subGraph, InOrder h (t.graph x).nodes) (hp : t.NodesInOrder g out)
    (hinner : h'.inner g = t.inner g) (hnodes : (h'.graph g).nodes = (t.graph g).nodes)
    (hroot : (h'.graph g).parentGraph = none) (hid : ∀ (i : Nat) n, out[i]? = some n → (h'.desc n).getId = i)
    (hperm : (h'.graph g).subGraph.Perm (h.graph g).subGraph) : h.WholeOrder h' g h.Ahead out := by
  have hp' : h'.NodesInOrder g out := by
    unfold NodesInOrder
    rwa [hinner, hnodes]
  obtain ⟨hnames, hsub, -⟩ := ho.names g
  have ha : t.RegistriesAgree g := by
    unfold RegistriesAgree
    rw [hnames, hsub]
    exact hm.agree
  have hclosed : ∀ x ∈ g :: (h.graph g).subGraph, ∀ u ∈ (t.graph x).nodes, ∀ v, h.Ahead u v → v ∈ (t.graph x).nodes :=
    fun x hx u hu v huv => (ho.nodes x).mem_iff.mpr (ahead_inside (hwell x hx).sortable ((ho.nodes x).mem_iff.mp hu) huv)
  have hsplit : ∀ u ∈ out, ∃ pre below after post, out = pre ++ u :: (below ++ (after ++ post)) ∧
      Preordered (t.inner g) (t.inner g u) below ∧ ∀ v, h.Ahead u v → v ∈ after := fun u hu =>
    split_walk ha hp hu (hsub.symm ▸ hord) (hsub.symm ▸ hclosed)
  refine ⟨hp', fun fuel hfuel => ?_, hid, fun u hu below hbelow => ?_, fun u hu v huv => ?_, hperm⟩
  · rw [getAllNodes, allGraphNodes_eq hroot hp' hfuel]
    rfl
  · obtain ⟨pre, below', after, post, hout, hb, -⟩ := hsplit u hu
    rw [hinner] at hbelow
    obtain rfl := hbelow.unique hb
    exact (places hid hout).1
  · obtain ⟨pre, below', after, post, hout, hb, hafter⟩ := hsplit u hu
    obtain ⟨hlt, hbetween⟩ := (places hid hout).2 v (hafter v huv)
    refine ⟨hlt, fun below hbelow => ?_⟩
    rw [hinner] at hbelow
    obtain rfl := hbelow.unique hb
    exact hbetween

theorem inner_numbered (subgraphs : List GraphId) (nodes : List NodeId) :
    (numbered g nodes subgraphs t).inner g = t.inner g ∧ (∀ x, ((numbered g nodes subgraphs t).graph x).nodes = (t.graph x).nodes) ∧
      ((numbered g nodes subgraphs t).graph g).parentGraph = (t.graph g).parentGraph ∧
      (numbered g nodes subgraphs t).desc = (setIds nodes 0 t).desc := by
  have ho := reordered_setIds nodes 0 t
  have hgraph : (setIds nodes 0 t).graph = t.graph := setIds_graph nodes 0 t
  have hresolved : (setIds nodes 0 t).resolved g = t.resolved g := funext fun n => ho.resolved n
  have hinner : (setIds nodes 0 t).inner g = t.inner g := by
    funext n
    simp only [Heap.inner, hresolved, hgraph]
  unfold numbered
  simp only
  split
  · exact ⟨hinner, fun x => by rw [hgraph], by rw [hgraph], rfl⟩
  · have hnodes : ∀ x, (((setIds nodes 0 t).setGraph g { (setIds nodes 0 t).graph g with subGraph := subgraphs }).graph x).nodes =
        (t.graph x).nodes := by
      intro x
      rw [setGraph_graph]
      split
      · rename_i hx
        rw [hx, hgraph]
      · rw [hgraph]
    refine ⟨?_, hnodes, by simp, rfl⟩
    rw [← hinner]
    funext n
    have hsame : ((setIds nodes 0 t).setGraph g { (setIds nodes 0 t).graph g with subGraph := subgraphs }).resolved g n =
        (setIds nodes 0 t).resolved g n := by
      simp [Heap.resolved, Heap.desc]
    rw [Heap.inner, hsame]
    exact congrArg (fun f => List.flatMap f _) (funext fun x => (hnodes x).trans (by rw [hgraph]))

/-- The list of subgraphs holds what it held after the sort of a model. -/
theorem registered_numbered (ho : Reordered h t) (hm : h.NestedModel g) (hp : t.NodesInOrder g out) :
    ((numbered g out (out.flatMap fun n => (t.resolved g n).reverse) t).graph g).subGraph.Perm (h.graph g).subGraph := by
  have hsub : ((setIds out 0 t).graph g).subGraph = (h.graph g).subGraph := by rw [setIds_graph, (ho.names g).2.1]
  unfold numbered
  simp only [hsub]
  split
  · rw [hsub]
  · rename_i hlen
    rw [setGraph_graph, if_pos rfl]
    -- the subgraphs met before the sorts are the same
    obtain ⟨out', hout', hperm⟩ := ho.symm.nodesInOrder hp
    have hcollected : (out.flatMap fun n => (t.resolved g n).reverse).Perm (out'.flatMap (h.resolved g)) := by
      calc (out.flatMap fun n => (t.resolved g n).reverse).Perm (out.flatMap (h.resolved g)) :=
            List.Perm.flatMap_left _ fun n _ => by
              rw [ho.resolved]
              exact reverse_perm _
        _ |>.Perm (out'.flatMap (h.resolved g)) := hperm.symm.flatMap_right _
    have hmet : (out'.flatMap (h.resolved g)).Subperm (h.graph g).subGraph := by
      refine (met_nodup hm hout').subperm fun x hx => ?_
      obtain ⟨n, -, hn⟩ := mem_flatMap.mp hx
      exact registered_of_resolved hm.agree hn
    refine hcollected.trans (hmet.perm_of_length_le (Nat.le_of_eq ?_))
    rw [← hcollected.length_eq]
    exact Classical.not_not.mp hlen

/-- The sort of a model returns. -/
theorem topologicalSorting_returns (runMode : Option Int) (hm : h.NestedModel g)
    (hwell : ∀ x ∈ g :: (h.graph g).subGraph, SortsWell h x)
    (hshort : ∀ x ∈ g :: (h.graph g).subGraph, (h.graph x).nodes.length < fuel) (hout : h.NodesInOrder g out)
    (hfuel : out.length < fuel) : ∃ ok h', topologicalSorting fuel runMode g h = some (ok, h') := by
  have hg := hwell g mem_cons_self
  obtain ⟨ok₁, t₁, h₁⟩ := sort_returns runMode hg (hshort g mem_cons_self)
  have ho₁ := reordered_sort hg.countable h₁
  unfold topologicalSorting
  rw [bind_of_eq h₁]
  cases ok₁ with
  | false => exact ⟨false, t₁, rfl⟩
  | true =>
    simp only [Bool.not_true, Bool.false_eq_true, if_false, get_bind_apply]
    split
    · exact ⟨true, t₁, rfl⟩
    · rw [(ho₁.names g).2.1]
      have hsubs : ∀ x ∈ (h.graph g).subGraph, SortsWell h x ∧ (h.graph x).nodes.length < fuel := fun x hx =>
        ⟨hwell x (mem_cons_of_mem g hx), hshort x (mem_cons_of_mem g hx)⟩
      obtain ⟨ok₂, t₂, h₂⟩ := eachOk_returns runMode hsubs ho₁
      have ho₂ := reordered_eachOk (fun x hx => (hsubs x hx).1.countable) ho₁ h₂
      rw [bind_of_eq h₂]
      cases ok₂ with
      | false => exact ⟨false, t₂, rfl⟩
      | true =>
        obtain ⟨out', hout', hperm⟩ := ho₂.nodesInOrder hout
        have hw := allGraphNodes_eq ((ho₂.names g).2.2.1.trans hm.root) hout' (hperm.length_eq ▸ hfuel)
        simp only [Bool.not_true, Bool.false_eq_true, if_false, get_bind_apply, hw, modify_bind_apply]
        split
        · exact ⟨true, _, rfl⟩
        · exact ⟨true, _, rfl⟩

end WholeOrderAux

open WholeOrderAux ResortAux NestedAux NodeWalks

/-- A sort of a root graph whose subgraphs are registered and nest without a cycle returns, and orders the whole model when it
succeeds. -/
theorem sorted_whole (h : Heap) (g : GraphId) (hs : h.Sound) (hd : h.Directed) (hm : h.NestedModel g)
    (hgraphs : ∀ x ∈ g :: (h.graph g).subGraph,
      h.ClosedGraph x ∧ (h.graph x).directNodesSize = (h.graph x).nodes.length ∧ h.LoopsClosed x)
    (hfan : ∀ n ∈ h.modelNodes g, h.inLinks n < uint32Size) (runMode : Option Int) :
    ∃ bound, ∀ fuel, bound < fuel → ∃ ok h', topologicalSorting fuel runMode g h = some (ok, h') ∧
      (ok = true → ∃ out, h.WholeOrder h' g h.Ahead out) := by
  have hsublist : ∀ x ∈ g :: (h.graph g).subGraph, (h.graph x).nodes.Sublist (h.modelNodes g) := by
    intro x hx
    rcases mem_cons.mp hx with rfl | hx
    · exact sublist_append_left _ _
    · obtain ⟨xs, ys, hsplit⟩ := append_of_mem hx
      refine List.Sublist.trans ?_ (sublist_append_right _ _)
      rw [hsplit, flatMap_append, flatMap_cons]
      exact (sublist_append_left _ _).trans (sublist_append_right _ _)
  have hwell : ∀ x ∈ g :: (h.graph g).subGraph, SortsWell h x := by
    intro x hx
    obtain ⟨hc, hsize, hl⟩ := hgraphs x hx
    exact ⟨⟨hs, hd, hc, (hsublist x hx).nodup (modelNodes_nodup hm), fun n hn => hfan n ((hsublist x hx).subset hn)⟩, hsize, hl,
      ((hsublist x hx).map _).nodup hm.own⟩
  obtain ⟨out₀, hout₀⟩ := exists_walk hm
  refine ⟨(h.modelNodes g).length + out₀.length, fun fuel hfuel => ?_⟩
  have hshort : ∀ x ∈ g :: (h.graph g).subGraph, (h.graph x).nodes.length < fuel := by
    intro x hx
    have := (hsublist x hx).length_le
    omega
  obtain ⟨ok, h', hr⟩ := topologicalSorting_returns runMode hm hwell hshort hout₀ (by omega)
  refine ⟨ok, h', hr, fun hok => ?_⟩
  subst hok
  obtain ⟨ok₁, t₁, h₁, hcases⟩ := topologicalSorting_cases hr
  have hg := hwell g mem_cons_self
  have ho₁ : Reordered h t₁ := reordered_sort hg.countable h₁
  rcases hcases with ⟨-, hfalse, -⟩ | ⟨rfl, -, hempty, rfl⟩ | ⟨rfl, ok₂, t₂, h₂, hcases⟩
  · cases hfalse
  · obtain ⟨hin, hid, -⟩ := sort_inOrder hg h₁
    rw [(ho₁.names g).2.1] at hempty
    have hinner : ∀ n, h'.inner g n = [] := fun n => by
      have hnone := inner_subset hm.agree (n := n)
      rw [hempty, flatMap_nil, subset_nil] at hnone
      exact ((ho₁.inner n).trans (hnone ▸ .refl _)).eq_nil
    refine ⟨(h'.graph g).nodes, wholeOrder_of ho₁ hwell hm (fun x hx => ?_) (Preordered.of_no_kids hinner _) rfl rfl
      ((ho₁.names g).2.2.1.trans hm.root) hid (by rw [(ho₁.names g).2.1])⟩
    rw [hempty] at hx
    rw [mem_singleton.mp hx]
    exact hin
  · rw [(ho₁.names g).2.1] at h₂
    have hsubs : ∀ x ∈ (h.graph g).subGraph, SortsWell h x := fun x hx => hwell x (mem_cons_of_mem g hx)
    have ho₂ : Reordered h t₂ := reordered_eachOk (fun x hx => (hsubs x hx).countable) ho₁ h₂
    rcases hcases with ⟨-, hfalse, -⟩ | ⟨rfl, -, out, subgraphs, hw, rfl⟩
    · cases hfalse
    · have hord := eachOk_inOrder (d := [g]) hsubs ho₁ (fun x hx => mem_singleton.mp hx ▸ (sort_inOrder hg h₁).1) h₂
      have hroot : (t₂.graph g).parentGraph = none := (ho₂.names g).2.2.1.trans hm.root
      obtain ⟨hp, rfl⟩ := of_allGraphNodes hroot hw
      obtain ⟨hinner, hnodes, hparent, hdesc⟩ := inner_numbered (g := g) (t := t₂)
        (out.flatMap fun n => (t₂.resolved g n).reverse) out
      refine ⟨out, wholeOrder_of ho₂ hwell hm hord hp hinner (hnodes g) (hparent.trans hroot) (fun i n hn => ?_)
        (registered_numbered ho₂ hm hp)⟩
      -- the nodes of the walk have descriptors of their own
      obtain ⟨out', hout', hperm⟩ := ho₂.symm.nodesInOrder hp
      have hops : (out.map fun n => (t₂.node n).op).Nodup := by
        rw [ho₂.node, ← (hperm.map _).nodup_iff]
        refine (nodup_map_iff_inj_on (nodup_walk hm hout')).mpr fun m hm' n hn' he => ?_
        exact inj_on_of_nodup_map hm.own (subset_modelNodes hm.agree hout' hm') (subset_modelNodes hm.agree hout' hn') he
      have hid := setIds_id out 0 t₂ hops i n hn
      rw [hdesc]
      omega

namespace WholeOrderWitness

/-- A merge and a node that closes its loop, fed by an input; the closing node has a subgraph with one node. Control anchors come
first. -/
def linking : List LinkCall :=
  [.newOp { opDef := { name := "x", type := "Data" }, outputsDesc := [{}] }, .newNode 0,
    .newOp { opDef := { name := "m", type := "Merge" }, inputsDesc := [{}, {}], outputsDesc := [{}] }, .newNode 1,
    .newOp { opDef := { name := "n", type := "NextIteration" }, inputsDesc := [{}], outputsDesc := [{}],
             subgraphInstanceNames := ["body"] }, .newNode 2,
    .newOp { opDef := { name := "y", type := "Relu" } }, .newNode 3,
    .addDataEdge (some 2) (some 5), .addDataEdge (some 7) (some 10), .addDataEdge (some 11) (some 6)]

/-- The nodes of the loop in graph 0, and that of the subgraph in graph 1. -/
def listed : Heap := GraphSteps.addAll 1 (GraphSteps.addAll 0 ((LinkCall.runAll linking).getD .empty) [0, 1, 2]) [3]

/-- The subgraph is registered. -/
def looping : Heap := listed.setGraph 0 { listed.graph 0 with subGraph := [1], namesToSubgraph := [("body", 1)] }

/-- The one link that closes a loop is followed back from its head to its tail. -/
theorem facts_looping : looping.Sound ∧ looping.Directed ∧ ∀ x, looping.LoopsClosed x := by
  have hlisted : listed.Sound :=
    sound_addAll 1 [3] (sound_addAll 0 [0, 1, 2] (sound_runAll linking _ (by decide +kernel) rfl))
  have hs : looping.Sound := sound_setGraph hlisted 0 _
  have hall := hs.forall_peers (P := fun a b => looping.isLoopLink a b = true → looping.owner a = 2 ∧ looping.owner b = 1)
    (by decide +kernel)
  refine ⟨hs, hs.forall_peers (by decide +kernel), fun x => ?_⟩
  rintro w - v ⟨a, b, hb, -, rfl, rfl, hloop⟩
  obtain ⟨ha, hv⟩ := hall a b hb hloop
  rw [ha, hv]
  exact .single ⟨7, 10, by decide +kernel, by decide +kernel, by decide +kernel, by decide +kernel, by decide +kernel⟩

theorem nested_looping : looping.NestedModel 0 := by
  have hagree : looping.RegistriesAgree 0 := by
    change Registry.Agree [1] [("body", 1)]
    exact ⟨by decide, by decide, by decide⟩
  refine ⟨rfl, hagree, by decide +kernel, by decide +kernel, fun x hx => ?_⟩
  -- nothing nests in the subgraph, and nothing else nests in anything
  have hone : ∀ x y, looping.Nests 0 x y → y = 1 := by
    rintro x y ⟨n, -, hy⟩
    exact mem_singleton.mp (registered_of_resolved hagree hy)
  have hnone : ∀ y, ¬ looping.Nests 0 1 y := by
    rintro y ⟨n, hn, hy⟩
    obtain rfl : n = 3 := mem_singleton.mp hn
    have hempty : looping.resolved 0 3 = [] := by decide +kernel
    rw [hempty] at hy
    cases hy
  obtain ⟨y, -, hyx⟩ := Relation.TransGen.tail'_iff.mp hx
  obtain ⟨z, hxz, -⟩ := Relation.TransGen.head'_iff.mp hx
  rw [hone y x hyx] at hxz
  exact hnone z hxz

theorem graphs_looping : ∀ x ∈ [0, 1],
    looping.ClosedGraph x ∧ (looping.graph x).directNodesSize = (looping.graph x).nodes.length ∧ looping.LoopsClosed x := by
  have hclosed : ∀ x ∈ [0, 1], ∀ a, ∀ b ∈ looping.peers a, looping.owner a ∈ (looping.graph x).nodes →
      looping.owner b ∈ (looping.graph x).nodes := by
    intro x hx
    refine facts_looping.1.forall_peers ?_
    revert x
    decide +kernel
  intro x hx
  refine ⟨⟨?_, fun a ha b hb => hclosed x hx a b hb ha⟩, ?_, facts_looping.2.2 x⟩
  · revert x
    decide +kernel
  · revert x
    decide +kernel

theorem sorted_whole_looping : ∃ bound, ∀ fuel, bound < fuel →
    ∃ ok h', topologicalSorting fuel none 0 looping = some (ok, h') ∧
      (ok = true → ∃ out, looping.WholeOrder h' 0 looping.Ahead out) :=
  sorted_whole looping 0 facts_looping.1 facts_looping.2.1 nested_looping graphs_looping (by decide +kernel) none

/-- The node that closes a loop comes after the merge it feeds. -/
theorem sorted_whole_false :
    ¬ ∀ (h h' : Heap) (g : GraphId) (fuel : Nat) (runMode : Option Int), h.Sound → h.Directed → h.NestedModel g →
      (∀ x ∈ g :: (h.graph g).subGraph,
        h.ClosedGraph x ∧ (h.graph x).directNodesSize = (h.graph x).nodes.length ∧ h.LoopsClosed x) →
      (∀ n ∈ h.modelNodes g, h.inLinks n < uint32Size) → topologicalSorting fuel runMode g h = some (true, h') →
      ∃ out, h.WholeOrder h' g h.AnyEdge out := by
  intro hall
  have hrun : (topologicalSorting 5 none 0 looping).map (fun r => (r.1, (r.2.desc 1).getId, (r.2.desc 2).getId,
      (r.2.graph 0).nodes)) = some (true, 1, 2, [0, 1, 2]) := by decide +kernel
  obtain ⟨⟨ok, h'⟩, hr, heq⟩ := Option.map_eq_some_iff.mp hrun
  simp only [Prod.mk.injEq] at heq
  obtain ⟨rfl, hm, hn, hnodes⟩ := heq
  obtain ⟨out, hout⟩ := hall looping h' 0 5 none facts_looping.1 facts_looping.2.1 nested_looping graphs_looping
    (by decide +kernel) hr
  have hedge : looping.AnyEdge 2 1 :=
    ⟨11, 6, by decide +kernel, by decide +kernel, by decide +kernel, by decide +kernel, rfl⟩
  have hmem : 2 ∈ out := hout.preorder.subset (hnodes ▸ by decide)
  have hlt := (hout.behind 2 hmem 1 hedge).1
  omega

end WholeOrderWitness

end Metadef
