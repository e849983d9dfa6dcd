import Metadef.Lemmas.Loading
import Metadef.Lib.Worklist

/-!
# What rebuilding the nesting leaves

The loop that rebuilds the nesting of the graphs read takes a queue of graphs to what the messages say: a graph is followed by the
graphs of the names its operators are read back with. Each graph it meets gets a node of the graph before it as its parent, and is
registered at the root.
-/

namespace Metadef

open List

namespace ModelSerializeImp

/-- The instance names the operators of a message are read back with. -/
def namesAsked (d : GraphDef) : List String := d.op.flatMap fun o => (unserializeOpDesc o).subgraphInstanceNames

/-- The messages the names of a message lead to among those behind the root's, none when a name leads to none. -/
def kids (l : List GraphDef) (d : GraphDef) : Option (List GraphDef) := (namesAsked d).mapM (lastNamed GraphDef.name l)

end ModelSerializeImp

namespace RebuildingAux

open Cmd ModelSerializeImp LoadingAux Worklist

/-- The graphs known by name are the last read of each name. -/
def Known (b : Heap) (first : GraphId) (subgraphs : OrderedMap String GraphId) (l : List GraphDef) : Prop :=
  ∀ s, Option.Rel (fun g d => first ≤ g ∧ b.GraphRead g d) (subgraphs.find s) (lastNamed GraphDef.name l s)

/-- A graph is met from a node of a graph that is reached from the root. -/
structure MetFrom (b : Heap) (first : GraphId) (l : List GraphDef) (root : GraphDef) (g p : GraphId) (n : NodeId) : Prop where
  made : first ≤ p
  listed : n ∈ (b.graph p).nodes
  named : (b.graph g).name ∈ (b.desc n).subgraphInstanceNames
  nested : ∃ dp dg, b.GraphRead p dp ∧ b.GraphRead g dg ∧ Reaches (kids l) root dp ∧ dg.name ∈ namesAsked dp ∧
    lastNamed GraphDef.name l dg.name = some dg

/-- The nesting rebuilt so far: every graph with parents was met from them, and every registered graph has parents. -/
structure Rebuilt (b : Heap) (first root : GraphId) (l : List GraphDef) (d : GraphDef) (t : Heap) : Prop where
  renested : b.Renested t
  parents : ∀ g, first ≤ g → g < t.graphCount → ((t.graph g).parentGraph = none ∧ (t.graph g).parentNode = none) ∨
    ∃ p n, (t.graph g).parentGraph = some p ∧ (t.graph g).parentNode = some n ∧ MetFrom b first l d g p n
  registered : ∀ g ∈ (t.graph root).subGraph, first ≤ g ∧ g < t.graphCount ∧ (t.graph g).parentGraph.isSome

variable {b h t : Heap} {first root g p sub : GraphId} {n : NodeId} {l : List GraphDef} {d dg : GraphDef} {s : String}
  {subgraphs : OrderedMap String GraphId}

/-! ## One graph met -/

theorem name_of_lastNamed {α : Type} {name : α → String} {l : List α} {x : α} (hx : lastNamed name l s = some x) :
    x ∈ l ∧ name x = s :=
  ⟨mem_reverse.mp (mem_of_find?_eq_some hx), by simpa using find?_some hx⟩

/-- Registering a graph that has its parents enters its name, and leaves all other nesting. -/
theorem addSubgraph_spec (root : GraphId) (name : String) (sub : GraphId) (h : Heap) (hp : ComputeGraph.hasParents h sub = true) :
    ∃ ok t, ComputeGraph.addSubgraph root name (some sub) h = some (ok, t) ∧ h.Renested t ∧
      (∀ x, (t.graph x).parentGraph = (h.graph x).parentGraph ∧ (t.graph x).parentNode = (h.graph x).parentNode) ∧
      (∀ x ∈ (t.graph root).subGraph, x = sub ∨ x ∈ (h.graph root).subGraph) ∧
      ∀ s, (t.graph root).namesToSubgraph.contains s = true ↔ s = name ∨ (h.graph root).namesToSubgraph.contains s = true := by
  simp only [ComputeGraph.addSubgraph, get_bind_apply, hp, Bool.not_true, Bool.false_eq_true, if_false]
  cases hc : (h.graph root).namesToSubgraph.contains name with
  | true =>
    refine ⟨false, h, rfl, Renested.refl h, fun _ => ⟨rfl, rfl⟩, fun x hx => .inr hx, fun s => ⟨.inr, ?_⟩⟩
    rintro (rfl | hs)
    · exact hc
    · exact hs
  | false =>
    have hthis : ((h.setGraph root { h.graph root with subGraph := (h.graph root).subGraph ++ [sub] }).setGraph root
        { (h.setGraph root { h.graph root with subGraph := (h.graph root).subGraph ++ [sub] }).graph root with
          namesToSubgraph := (h.graph root).namesToSubgraph.assign name sub }).graph root =
        { h.graph root with subGraph := (h.graph root).subGraph ++ [sub]
                            namesToSubgraph := (h.graph root).namesToSubgraph.assign name sub } := by
      simp
    refine ⟨true, (h.setGraph root { h.graph root with subGraph := (h.graph root).subGraph ++ [sub] }).setGraph root
      { (h.setGraph root { h.graph root with subGraph := (h.graph root).subGraph ++ [sub] }).graph root with
        namesToSubgraph := (h.graph root).namesToSubgraph.assign name sub }, ?_, ?_, fun x => ?_, fun x hx => ?_, fun s => ?_⟩
    · simp [ComputeGraph.edit]
    · exact Renested.trans (Renested.edit (by rfl) (by rfl)) (Renested.edit (by rfl) (by rfl))
    · simp only [Heap.setGraph_graph]
      split
      · subst_vars
        exact ⟨rfl, rfl⟩
      · exact ⟨rfl, rfl⟩
    · rw [hthis] at hx
      exact (mem_append.mp hx).symm.imp_left mem_singleton.mp
    · rw [hthis]
      exact OrderedMap.contains_assign hc

/-- A graph met gets its parents and is registered under its name, and the loop goes on. -/
theorem attach_spec (hr : Rebuilt b first root l d h) (hmet : MetFrom b first l d sub p n) (hsub : first ≤ sub)
    (howner : (b.node n).ownerGraph = some p) :
    ∃ ok t, (∀ (β : Type) (c : Bool → Cmd Heap β), (do
        ComputeGraph.edit sub fun g => { g with parentGraph := some p }
        ComputeGraph.edit sub fun g => { g with parentNode := some n }
        let h ← get
        let ok ← ComputeGraph.addSubgraph root (h.graph sub).name (some sub)
        c ok) h = c ok t) ∧ Rebuilt b first root l d t ∧
      ∀ s, (t.graph root).namesToSubgraph.contains s = true ↔
        s = (b.graph sub).name ∨ (h.graph root).namesToSubgraph.contains s = true := by
  obtain ⟨u, hu⟩ : ∃ u : Heap, u = (h.setGraph sub { h.graph sub with parentGraph := some p }).setGraph sub
    { (h.setGraph sub { h.graph sub with parentGraph := some p }).graph sub with parentNode := some n } := ⟨_, rfl⟩
  have hthis : u.graph sub = { h.graph sub with parentGraph := some p, parentNode := some n } := by simp [hu]
  have hother : ∀ x, x ≠ sub → u.graph x = h.graph x := fun x hx => by simp [hu, hx]
  have hre : b.Renested u := by
    rw [hu]
    exact Renested.trans hr.renested (Renested.trans (Renested.edit (by rfl) (by rfl)) (Renested.edit (by rfl) (by rfl)))
  have hregistry : (u.graph root).subGraph = (h.graph root).subGraph ∧
      (u.graph root).namesToSubgraph = (h.graph root).namesToSubgraph := by
    by_cases hx : root = sub
    · rw [hx, hthis]
      exact ⟨rfl, rfl⟩
    · rw [hother root hx]
      exact ⟨rfl, rfl⟩
  have hparents : ComputeGraph.hasParents u sub = true := by
    unfold ComputeGraph.hasParents
    rw [hthis, hre.node]
    simpa using howner
  have hcount : u.graphCount = h.graphCount := by rw [hu]; rfl
  obtain ⟨ok, t, hrun, hut, hsame, hsubs, hkeys⟩ := addSubgraph_spec root (u.graph sub).name sub u hparents
  obtain ⟨dp, dg, hdp, hdg, hnested⟩ := hmet.nested
  refine ⟨ok, t, ?_, ⟨Renested.trans hre hut, fun g hg hlt => ?_, fun g hg => ?_⟩, fun s => ?_⟩
  · intro β c
    simp only [ComputeGraph.edit, modify_bind_apply, get_bind_apply, ← hu]
    exact bind_of_eq hrun
  · rw [(hsame g).1, (hsame g).2]
    by_cases hx : g = sub
    · rw [hx, hthis]
      exact .inr ⟨p, n, rfl, rfl, hmet⟩
    · rw [hother g hx]
      rw [hut.graphCount, hcount] at hlt
      exact hr.parents g hg hlt
  · rw [(hsame g).1]
    rw [hut.graphCount, hcount]
    rcases hsubs g hg with rfl | hg
    · refine ⟨hsub, ?_, by rw [hthis]; rfl⟩
      rw [hr.renested.graphCount]
      exact hdg.made
    · rw [hregistry.1] at hg
      obtain ⟨hfirst, hlt, hsome⟩ := hr.registered g hg
      refine ⟨hfirst, hlt, ?_⟩
      by_cases hx : g = sub
      · rw [hx, hthis]
        rfl
      · rw [hother g hx]
        exact hsome
  · rw [hkeys, hregistry.2, hre.name]

/-! ## The graphs of a node, of a graph and of a queue -/

/-- The graphs the names of a node lead to are those the messages say, and are met from the node. -/
theorem rebuildNode_spec (root : GraphId) (hknown : Known b first subgraphs l) (hp : first ≤ p) (hread : b.GraphRead p dg)
    (hreach : Reaches (kids l) d dg) (hn : n ∈ (b.graph p).nodes) (howner : (b.node n).ownerGraph = some p)
    (names : List String) (hnames : ∀ s ∈ names, s ∈ (b.desc n).subgraphInstanceNames ∧ s ∈ namesAsked dg) :
    ∀ {h}, Rebuilt b first root l d h → ∃ r t, rebuildNode root subgraphs p n names h = some (r, t) ∧
      Rebuilt b first root l d t ∧
      Option.Rel (List.Forall₂ fun g d => first ≤ g ∧ b.GraphRead g d) r (names.mapM (lastNamed GraphDef.name l)) ∧
      (r.isSome → ∀ s, (t.graph root).namesToSubgraph.contains s = true ↔
        s ∈ names ∨ (h.graph root).namesToSubgraph.contains s = true) := by
  induction names with
  | nil => exact fun {h} hr => ⟨some [], h, rfl, hr, .some .nil, by simp⟩
  | cons name names ih =>
    intro h hr
    have hs := hknown name
    rw [mapM_cons]
    unfold rebuildNode
    revert hs
    generalize subgraphs.find name = found
    generalize hlast : lastNamed GraphDef.name l name = last
    rintro (hsub | -)
    · rename_i sub x
      obtain ⟨hfirst, hx⟩ := hsub
      have hname := (name_of_lastNamed hlast).2
      obtain ⟨hinst, hasked⟩ := hnames name mem_cons_self
      have hmet : MetFrom b first l d sub p n := by
        refine ⟨hp, hn, ?_, dg, x, hread, hx, hreach, ?_, ?_⟩
        · rw [hx.name, hname]
          exact hinst
        · rw [hname]
          exact hasked
        · rw [hname]
          exact hlast
      obtain ⟨ok, u, hattach, hu, hkeys⟩ := attach_spec hr hmet hfirst howner
      obtain ⟨r, t, hrest, ht, hrel, hkeys'⟩ := ih (fun s hs => hnames s (mem_cons_of_mem name hs)) hu
      dsimp only
      rw [hattach, bind_of_eq hrest]
      cases r with
      | none =>
        refine ⟨none, t, rfl, ht, ?_, by simp⟩
        revert hrel
        generalize List.mapM (lastNamed GraphDef.name l) names = m
        rintro (- | -)
        exact .none
      | some found =>
        refine ⟨some (sub :: found), t, rfl, ht, ?_, fun _ s => ?_⟩
        · revert hrel
          generalize List.mapM (lastNamed GraphDef.name l) names = m
          rintro (hfound | -)
          exact .some (.cons ⟨hfirst, hx⟩ hfound)
        · rw [hkeys' rfl, hkeys, hx.name, hname, mem_cons]
          exact or_left_comm.trans or_assoc.symm
    · exact ⟨none, h, rfl, hr, .none, by simp⟩

/-- The graphs the nodes of a graph lead to. -/
theorem rebuildNodes_spec (root : GraphId) (hknown : Known b first subgraphs l) (hp : first ≤ p) (hread : b.GraphRead p dg)
    (hreach : Reaches (kids l) d dg) {nodes : List NodeId} {ops : List OpDef} (hnodes : List.Forall₂ (b.NodeRead p) nodes ops)
    (hlisted : ∀ n ∈ nodes, n ∈ (b.graph p).nodes) (hops : ∀ o ∈ ops, o ∈ dg.op) :
    ∀ {h}, Rebuilt b first root l d h → ∃ r t, rebuildNodes root subgraphs p nodes h = some (r, t) ∧
      Rebuilt b first root l d t ∧
      Option.Rel (List.Forall₂ fun g d => first ≤ g ∧ b.GraphRead g d) r
        ((ops.flatMap fun o => (unserializeOpDesc o).subgraphInstanceNames).mapM (lastNamed GraphDef.name l)) ∧
      (r.isSome → ∀ s, (t.graph root).namesToSubgraph.contains s = true ↔
        (s ∈ ops.flatMap fun o => (unserializeOpDesc o).subgraphInstanceNames) ∨
          (h.graph root).namesToSubgraph.contains s = true) := by
  induction hnodes with
  | nil => exact fun {h} hr => ⟨some [], h, rfl, hr, .some .nil, by simp⟩
  | @cons n o nodes ops hno _ ih =>
    intro h hr
    have ho : o ∈ dg.op := hops o mem_cons_self
    have hdesc : h.desc n = unserializeOpDesc o := by
      rw [Heap.desc, hr.renested.op, hr.renested.node]
      exact hno.desc
    obtain ⟨r, u, hrun, hu, hrel, hkeys⟩ := rebuildNode_spec root hknown hp hread hreach
      (hlisted n mem_cons_self) hno.owner (unserializeOpDesc o).subgraphInstanceNames
      (fun s hs => ⟨hno.desc ▸ hs, mem_flatMap.mpr ⟨o, ho, hs⟩⟩) hr
    rw [flatMap_cons, mapM_append]
    unfold rebuildNodes
    rw [get_bind_apply, hdesc, bind_of_eq hrun]
    revert hrel
    generalize (unserializeOpDesc o).subgraphInstanceNames.mapM (lastNamed GraphDef.name l) = m
    rintro (hfound | -)
    · rename_i found ds
      obtain ⟨r', t, hrun', ht, hrel', hkeys'⟩ := ih (fun n hn => hlisted n (mem_cons_of_mem _ hn))
        (fun o ho => hops o (mem_cons_of_mem _ ho)) hu
      dsimp only
      rw [bind_of_eq hrun']
      revert hrel' hkeys'
      generalize (ops.flatMap fun o => (unserializeOpDesc o).subgraphInstanceNames).mapM (lastNamed GraphDef.name l) = m'
      rintro (hfound' | -) hkeys'
      · refine ⟨_, t, rfl, ht, .some (rel_append hfound hfound'), fun _ s => ?_⟩
        rw [hkeys' rfl, hkeys rfl, mem_append]
        exact or_left_comm.trans or_assoc.symm
      · exact ⟨none, t, rfl, ht, .none, by simp⟩
    · exact ⟨none, u, rfl, hu, .none, by simp⟩

/-- The names asked for by what is reached from a queue. -/
def namesReached (l queue : List GraphDef) (s : String) : Prop :=
  ∃ x ∈ queue, ∃ y, Reaches (kids l) x y ∧ s ∈ namesAsked y

theorem namesReached_cons {x : GraphDef} {queue found : List GraphDef} (hk : kids l x = some found) :
    namesReached l (x :: queue) s ↔ namesReached l (queue ++ found) s ∨ s ∈ namesAsked x := by
  constructor
  · rintro ⟨z, hz, y, hy, hs⟩
    rcases mem_cons.mp hz with rfl | hz
    · rcases hy.cases_head with rfl | ⟨w, ⟨found', hk', hw⟩, hy⟩
      · exact .inr hs
      · obtain rfl : found = found' := Option.some.inj (hk.symm.trans hk')
        exact .inl ⟨w, mem_append_right queue hw, y, hy, hs⟩
    · exact .inl ⟨z, mem_append_left found hz, y, hy, hs⟩
  · rintro (⟨z, hz, y, hy, hs⟩ | hs)
    · rcases mem_append.mp hz with hz | hz
      · exact ⟨z, mem_cons_of_mem x hz, y, hy, hs⟩
      · exact ⟨x, mem_cons_self, y, .head ⟨found, hk, hz⟩ hy, hs⟩
    · exact ⟨x, mem_cons_self, x, .refl, hs⟩

/-- The loop over the queue is the worklist of the messages. When it ends well, the names asked for by what was reached are
registered. -/
theorem rebuildOwnership_spec (hknown : Known b first subgraphs l) (fuel : Nat) :
    ∀ (queue : List GraphId) (ds : List GraphDef) {h}, List.Forall₂ (fun g d => first ≤ g ∧ b.GraphRead g d) queue ds →
      (∀ x ∈ ds, Reaches (kids l) d x) → Rebuilt b first root l d h →
      ((rebuildOwnership root subgraphs fuel queue h).map Prod.fst = drain (kids l) fuel ds) ∧
        ∀ ok t, rebuildOwnership root subgraphs fuel queue h = some (ok, t) → Rebuilt b first root l d t ∧
          (ok = true → ∀ s, (t.graph root).namesToSubgraph.contains s = true ↔
            namesReached l ds s ∨ (h.graph root).namesToSubgraph.contains s = true) := by
  induction fuel with
  | zero => exact fun _ _ _ _ _ _ => ⟨rfl, fun _ _ h => by cases h⟩
  | succ fuel ih =>
    intro queue ds h hqueue hreach hr
    cases hqueue with
    | nil =>
      refine ⟨rfl, fun ok t ht => ?_⟩
      obtain ⟨rfl, rfl⟩ := of_return ht
      exact ⟨hr, fun _ s => by simp [namesReached]⟩
    | @cons g x queue ds hg hqueue =>
      obtain ⟨r, u, hrun, hu, hrel, hkeys⟩ := rebuildNodes_spec root hknown hg.1 hg.2 (hreach x mem_cons_self)
        hg.2.nodes (fun _ hn => hn) (fun _ ho => ho) hr
      have hkids : (x.op.flatMap fun o => (unserializeOpDesc o).subgraphInstanceNames).mapM (lastNamed GraphDef.name l) =
        kids l x :=
        rfl
      unfold rebuildOwnership drain
      rw [get_bind_apply, hr.renested.nodes, bind_of_eq hrun]
      rw [hkids] at hrel
      revert hrel
      generalize hk : kids l x = m
      rintro (hfound | -)
      · rename_i found fs
        have hreach' : ∀ y ∈ ds ++ fs, Reaches (kids l) d y := by
          intro y hy
          rcases mem_append.mp hy with hy | hy
          · exact hreach y (mem_cons_of_mem x hy)
          · exact (hreach x mem_cons_self).tail ⟨fs, hk, hy⟩
        obtain ⟨hdrain, hafter⟩ := ih _ _ (rel_append hqueue hfound) hreach' hu
        refine ⟨hdrain, fun ok t ht => ?_⟩
        obtain ⟨htr, hok⟩ := hafter ok t ht
        refine ⟨htr, fun h1 s => ?_⟩
        rw [hok h1, hkeys rfl, namesReached_cons hk, or_assoc]
        rfl
      · refine ⟨rfl, fun ok t ht => ?_⟩
        obtain ⟨rfl, rfl⟩ := of_return ht
        exact ⟨hu, by simp⟩

/-! ## Reading a model -/

theorem Known.extended (hknown : Known h first subgraphs l) (he : h.Extended t) : Known t first subgraphs l :=
  fun s => optionRel_imp (fun _ _ hg => ⟨hg.1, GraphRead.extended hg.2 he⟩) (hknown s)

theorem Rebuilt.rewired (hr : Rebuilt b first root l d h) (hre : h.Rewired t) : Rebuilt b first root l d t := by
  have hgraph : ∀ g, (t.graph g).parentGraph = (h.graph g).parentGraph := fun g => congrArg Prod.fst (hre.nesting g)
  have hnode : ∀ g, (t.graph g).parentNode = (h.graph g).parentNode := fun g => congrArg (fun e => e.2.1) (hre.nesting g)
  have hsubs : ∀ g, (t.graph g).subGraph = (h.graph g).subGraph := fun g => congrArg (fun e => e.2.2.1) (hre.nesting g)
  refine ⟨Renested.trans hr.renested hre.toRenested, fun g hg hlt => ?_, fun g hg => ?_⟩
  · rw [hgraph, hnode]
    exact hr.parents g hg (hre.graphCount ▸ hlt)
  · rw [hgraph, hre.graphCount]
    exact hr.registered g (hsubs root ▸ hg)

/-- Reading the graphs behind the root's ends with the last of each name, unless one asks for what it has not got. -/
theorem unserializeSubgraphs_spec (l : List GraphDef) : ∀ (done : List GraphDef) (subgraphs : OrderedMap String GraphId) {h : Heap},
    Known h first subgraphs done → first ≤ h.graphCount →
    (∀ g, first ≤ g → g < h.graphCount → (h.graph g).nesting = (none, none, [], [])) →
    ∃ r t, unserializeSubgraphs l subgraphs h = some (r, t) ∧ h.Extended t ∧
      (∀ g, first ≤ g → g < t.graphCount → (t.graph g).nesting = (none, none, [], [])) ∧
      if l.all met then ∃ subgraphs', r = some subgraphs' ∧ Known t first subgraphs' (done ++ l) else r = none := by
  induction l with
  | nil =>
    intro done subgraphs h hknown _ hfresh
    exact ⟨_, h, rfl, Extended.refl h, hfresh, by simpa using hknown⟩
  | cons d l ih =>
    intro done subgraphs h hknown hle hfresh
    obtain ⟨imp, t, hrun, hcount, hext, hold, hnew, hread, hask⟩ := unserializeGraphWithoutEdge_spec d h
    obtain ⟨u, hmeet, hre⟩ := handleNodeNameRef_spec hread hask
    have hext' := Extended.trans hext (Renested.extended hre.toRenested)
    have hfresh' : ∀ g, first ≤ g → g < u.graphCount → (u.graph g).nesting = (none, none, [], []) := by
      intro g hg hlt
      rw [hre.graphCount, hcount] at hlt
      rw [hre.nesting]
      rcases Nat.lt_succ_iff_lt_or_eq.mp hlt with hlt | rfl
      · exact (hold g hlt).trans (hfresh g hg hlt)
      · exact hnew
    unfold unserializeSubgraphs
    rw [bind_of_eq hrun]
    simp only [Bool.not_true, Bool.false_eq_true, if_false]
    rw [bind_of_eq hmeet, all_cons]
    cases hmet : met d with
    | false => exact ⟨none, u, rfl, hext', hfresh', by simp⟩
    | true =>
      have hread' := GraphRead.extended hread (Renested.extended hre.toRenested)
      have hknown' : Known u first (subgraphs.assign (u.graph h.graphCount).name h.graphCount) (done ++ [d]) := by
        intro s
        rw [OrderedMap.find_assign, lastNamed_concat, hread'.name]
        by_cases hs : d.name = s
        · rw [if_pos hs.symm, if_pos hs]
          exact .some ⟨hle, hread'⟩
        · rw [if_neg hs, if_neg fun e => hs e.symm]
          exact Known.extended hknown hext' s
      obtain ⟨r, v, hrest, hext'', hfresh'', hall⟩ := ih _ _ hknown' (hle.trans hext'.graphCount) hfresh'
      rw [append_assoc, singleton_append] at hall
      refine ⟨r, v, ?_, Extended.trans hext' hext'', hfresh'', by simpa using hall⟩
      rw [if_neg (by simp), get_bind_apply]
      exact hrest

/-- Reading a model comes to what its messages say: the nesting is rebuilt where the graphs behind the root's have all they ask
for. When it succeeds, every graph met has its parents, and the names asked for by what was reached are registered. -/
theorem unserializeModel_spec (fuel : Nat) (d : GraphDef) (l : List GraphDef) (h : Heap) :
    ((unserializeModel fuel { graph := d :: l } h).map fun r => r.1.1) =
        (if l.all met then (drain (kids l) fuel [d]).map (· && met d) else some false) ∧
      ∀ g t, unserializeModel fuel { graph := d :: l } h = some ((true, g), t) → g = some h.graphCount ∧
        (∃ b, Rebuilt b h.graphCount h.graphCount l d t) ∧
        ∀ s, (t.graph h.graphCount).namesToSubgraph.contains s = true ↔ namesReached l [d] s := by
  obtain ⟨imp, t₁, hrun₁, hcount₁, hext₁, -, hfresh₁, hread₁, hask₁⟩ := unserializeGraphWithoutEdge_spec d h
  have hfresh : ∀ g, h.graphCount ≤ g → g < t₁.graphCount → (t₁.graph g).nesting = (none, none, [], []) := by
    intro g hg hlt
    obtain rfl : g = h.graphCount := by omega
    exact hfresh₁
  obtain ⟨r, t₂, hrun₂, hext₂, hfresh₂, hall⟩ := unserializeSubgraphs_spec l [] [] (fun _ => .none) hext₁.graphCount hfresh
  have hread₂ := GraphRead.extended hread₁ hext₂
  have hask₂ := Asked.extended hask₁ hread₁ hext₂
  unfold unserializeModel
  simp only [bind_of_eq hrun₁, bind_of_eq hrun₂]
  cases hmets : l.all met with
  | false =>
    rw [hmets] at hall
    obtain rfl : r = none := by simpa using hall
    exact ⟨rfl, fun g t ht => by simp at ht⟩
  | true =>
    rw [hmets] at hall
    obtain ⟨subgraphs, rfl, hknown⟩ := by simpa using hall
    have hstart : Rebuilt t₂ h.graphCount h.graphCount l d t₂ := by
      refine ⟨Renested.refl t₂, fun g hg hlt => .inl ?_, fun g hg => ?_⟩
      · have hnest := hfresh₂ g hg hlt
        exact ⟨congrArg Prod.fst hnest, congrArg (fun e => e.2.1) hnest⟩
      · have hnest : (t₂.graph h.graphCount).subGraph = [] := congrArg (fun e => e.2.2.1) (hfresh₂ _ (Nat.le_refl _) hread₂.made)
        rw [hnest] at hg
        cases hg
    have hempty : (t₂.graph h.graphCount).namesToSubgraph = [] :=
      congrArg (fun e => e.2.2.2) (hfresh₂ _ (Nat.le_refl _) hread₂.made)
    obtain ⟨hdrain, hafter⟩ := rebuildOwnership_spec hknown fuel [h.graphCount] [d]
      (.cons ⟨Nat.le_refl _, hread₂⟩ .nil) (by simp [Reaches, Relation.ReflTransGen.refl]) hstart
    rw [← hdrain]
    dsimp only
    cases hown : rebuildOwnership h.graphCount subgraphs fuel [h.graphCount] t₂ with
    | none => exact ⟨by simp [hown, bind, StateT.bind], fun g t ht => by simp [hown, bind, StateT.bind] at ht⟩
    | some e =>
      obtain ⟨ok, t₃⟩ := e
      obtain ⟨hr, hkeys⟩ := hafter ok t₃ hown
      rw [bind_of_eq hown]
      cases ok with
      | false => exact ⟨rfl, fun g t ht => by simp at ht⟩
      | true =>
        have he := Renested.extended hr.renested
        obtain ⟨t₄, hmeet, hre⟩ := handleNodeNameRef_spec (GraphRead.extended hread₂ he) (Asked.extended hask₂ hread₂ he)
        rw [if_neg (by simp), bind_of_eq hmeet]
        cases hmet : met d with
        | false => exact ⟨rfl, fun g t ht => by simp at ht⟩
        | true =>
          refine ⟨rfl, fun g t ht => ?_⟩
          obtain ⟨rfl, rfl⟩ : some h.graphCount = g ∧ t₄ = t := by simpa using ht
          refine ⟨rfl, ⟨t₂, Rebuilt.rewired hr hre⟩, fun s => ?_⟩
          have hsame : (t₄.graph h.graphCount).namesToSubgraph = (t₃.graph h.graphCount).namesToSubgraph :=
            congrArg (fun e => e.2.2.2) (hre.nesting _)
          rw [hsame, hkeys rfl, hempty]
          simp [OrderedMap.contains]

end RebuildingAux

end Metadef
