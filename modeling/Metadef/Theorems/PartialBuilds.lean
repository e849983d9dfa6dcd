import Metadef.Lemmas.BuilderSteps
import Metadef.Theorems.LinkSymmetry

/-!
# Partial builds

A partial build adds nodes and links to a graph that is there, and takes nothing back. When it returns the graph all of them were
added; when it does not, those were that come before what it stopped at.
-/

namespace Metadef

open Option List

/-- A link between nodes that are given under its names, as the anchors it joins. -/
def BuilderLink.Between (h : Heap) (given : String → NodeId → Prop) (e : AnchorId × AnchorId) : BuilderLink → Prop
  | data ((srcName, outInd), (dstName, inInd)) => ∃ m n, given srcName m ∧ given dstName n ∧
    Node.getOutDataAnchor h m (anchorIndex outInd) = some e.1 ∧ Node.getInDataAnchor h n (anchorIndex inInd) = some e.2
  | ctrl (srcName, dstName) => ∃ m n, given srcName m ∧ given dstName n ∧
    e = ((h.node m).outControlAnchor, (h.node n).inControlAnchor)

/-- A link with no node under one of its names, or a data link between nodes without such an anchor, or to an input that has a link. -/
def BuilderLink.Unbuildable (h : Heap) (given : String → NodeId → Prop) : BuilderLink → Prop
  | data ((srcName, outInd), (dstName, inInd)) => (∀ n, ¬ given srcName n) ∨ (∀ n, ¬ given dstName n) ∨
    ∃ m n, given srcName m ∧ given dstName n ∧ ∀ a b, Node.getOutDataAnchor h m (anchorIndex outInd) = some a →
      Node.getInDataAnchor h n (anchorIndex inInd) = some b → h.peers b ≠ []
  | ctrl (srcName, dstName) => (∀ n, ¬ given srcName n) ∨ ∀ n, ¬ given dstName n

namespace PartialGraphBuilder

variable (b : PartialGraphBuilder)

/-- A node that the caller added or named, under its name. -/
def Given (h h' : Heap) (name : String) (n : NodeId) : Prop :=
  Node.getName h' n = name ∧ ((h.nodeCount ≤ n ∧ n < h'.nodeCount) ∨ some n ∈ b.existNodes)

/-- A graph has nodes over descriptors more than before, last and in their order; all other nodes and graphs are as they were. -/
structure NodesAdded (g : GraphId) (ops : List OpId) (h h' : Heap) : Prop where
  count : h'.nodeCount = h.nodeCount + ops.length
  listed : (h'.graph g).nodes = (h.graph g).nodes ++ List.range' h.nodeCount ops.length
  made : ∀ i o, ops[i]? = some o → (h'.node (h.nodeCount + i)).op = o
  olds : ∀ n < h.nodeCount, h'.node n = h.node n
  graphs : ∀ y, y ≠ g → h'.graph y = h.graph y

/-- The nodes and the links were added, and no others: each anchor has the links it had, and then those of the new edges. -/
def Adds (g : GraphId) (ops : List OpId) (links : List BuilderLink) (h h' : Heap) : Prop :=
  NodesAdded g ops h h' ∧ ∃ edges, List.Forall₂ (fun l e => l.Between h' (b.Given h h') e) links edges ∧
    ∀ a, h'.peers a = h.peers a ++ LinkListsAux.addedPeers edges a

/-- What a build stops at, behind the nodes and links it adds. -/
inductive StopsAt (g : GraphId) (e : BuildError) (ops : List OpId) (links : List BuilderLink) (h h' : Heap) : Prop
  | nullOp (hops : ops.map some ++ [none] <+: b.nodes) (hlinks : links = [])
  | error (hops : ops.map some = b.nodes) (hlinks : links = []) (he : e.failed = true)
  | existNode (x : Option NodeId) (hops : ops.map some = b.nodes) (hlinks : links = []) (hx : x ∈ b.existNodes)
    (howner : ∀ n, x = some n → (h.node n).ownerGraph ≠ some g)
  | link (l : BuilderLink) (hops : ops.map some = b.nodes) (hlinks : links ++ [l] <+: b.links)
    (hl : l.Unbuildable h' (b.Given h h'))

end PartialGraphBuilder

namespace PartialBuildsAux

open Cmd BuilderStepsAux LinkListsAux PartialGraphBuilder

variable {h t : Heap} {g : GraphId} {ops : List OpId} {b : PartialGraphBuilder}

/-- The existing nodes before the first that is missing or not of the graph are entered. -/
theorem existNodes_run (g : GraphId) : ∀ (nodes : List (Option NodeId)) (s : NamedNodes),
    ∃ (done : List NodeId) (rest : List (Option NodeId)) (r : Option String), nodes = done.map some ++ rest ∧
      eachItem (PartialGraphBuilder.buildExistNode g) nodes s =
      some (r, { s with nodeNames := enterAll s.nodeNames (done.map fun n => (Node.getName s.heap n, n)) }) ∧
        (r = none ∧ rest = [] ∨ r.isSome ∧ ∃ x ∈ nodes, ∀ n, x = some n → (s.heap.node n).ownerGraph ≠ some g)
  | [], s => ⟨[], [], none, rfl, rfl, .inl ⟨rfl, rfl⟩⟩
  | none :: nodes, s => ⟨[], none :: nodes, some _, rfl, rfl, .inr ⟨rfl, none, mem_cons_self, fun n hn => absurd hn.symm (Option.some_ne_none n)⟩⟩
  | some n :: nodes, s => by
    by_cases howner : (s.heap.node n).ownerGraph = some g
    · have hstep : PartialGraphBuilder.buildExistNode g (some n) s =
          some (none, { s with nodeNames := s.nodeNames.assign (Node.getName s.heap n) n }) := by
        unfold PartialGraphBuilder.buildExistNode
        dsimp only
        rw [get_bind_apply, if_neg (not_not.mpr howner)]
        rfl
      obtain ⟨done, rest, r, hnodes, hrun, hr⟩ :=
        existNodes_run g nodes { s with nodeNames := s.nodeNames.assign (Node.getName s.heap n) n }
      refine ⟨n :: done, rest, r, by rw [hnodes]; rfl, ?_, ?_⟩
      · rw [eachItem, bind_of_eq hstep]
        exact hrun
      · refine hr.imp_right fun hstopped => ?_
        obtain ⟨hr, x, hx, hnot⟩ := hstopped
        exact ⟨hr, x, mem_cons_of_mem _ hx, hnot⟩
    · have hstep : PartialGraphBuilder.buildExistNode g (some n) s =
          some (some ("Build exist nodes failed: node " ++ Node.getName s.heap n ++ " not belongs to this graph."), s) := by
        unfold PartialGraphBuilder.buildExistNode
        dsimp only
        rw [get_bind_apply, if_pos howner]
        rfl
      exact ⟨[], some n :: nodes, _, rfl, eachItem_stops hstep nodes,
        .inr ⟨rfl, some n, mem_cons_self, fun _ hn => some_inj.mp hn ▸ howner⟩⟩

/-! ## Names -/

/-- The names after all nodes before the links were entered. -/
def namesOf (h t : Heap) (ops : List OpId) (done : List NodeId) : OrderedMap String NodeId :=
  enterAll (enterAll [] (builtNames h h.nodeCount ops)) (done.map fun n => (Node.getName t n, n))

theorem name_of_made (hg : NodesGrown h g ops t) {i : Nat} {o : OpId} (ho : ops[i]? = some o) :
    Node.getName t (h.nodeCount + i) = (h.op o).getName := by
  obtain ⟨j, hj⟩ := hg.descs o
  rw [Node.getName, Heap.desc, (hg.made i o ho).1, hj]
  rfl

variable {done : List NodeId} {name : String} {n : NodeId} {names : OrderedMap String NodeId}
  {given : String → NodeId → Prop} {l : BuilderLink}

theorem given_of_find (hg : NodesGrown h g ops t) (hdone : ∀ n ∈ done, some n ∈ b.existNodes)
    (hfind : (namesOf h t ops done).find name = some n) : b.Given h t name n := by
  obtain hin | hfind := find_enterAll hfind
  · obtain ⟨m, hm, heq⟩ := List.mem_map.mp hin
    obtain ⟨rfl, rfl⟩ := Prod.mk.inj heq
    exact ⟨rfl, .inr (hdone m hm)⟩
  · obtain hin | hnone := find_enterAll hfind
    · obtain ⟨i, o, ho, rfl, rfl⟩ := mem_builtNames.mp hin
      have hlt : i < ops.length := (List.getElem?_eq_some_iff.mp ho).1
      exact ⟨name_of_made hg ho, .inl ⟨Nat.le_add_right _ _, by rw [hg.nodeCount]; exact Nat.add_lt_add_left hlt _⟩⟩
    · exact nomatch hnone

theorem find_of_given (hg : NodesGrown h g ops t) (hdone : ∀ n, some n ∈ b.existNodes → n ∈ done)
    (hgiven : b.Given h t name n) : ∃ m, (namesOf h t ops done).find name = some m := by
  obtain ⟨rfl, ⟨hle, hlt⟩ | hin⟩ := hgiven
  · obtain ⟨i, rfl⟩ := Nat.exists_eq_add_of_le hle
    rw [hg.nodeCount] at hlt
    obtain ⟨o, ho⟩ : ∃ o, ops[i]? = some o := ⟨_, getElem?_eq_getElem (Nat.lt_of_add_lt_add_left hlt)⟩
    refine contains_enterAll (.inr (contains_enterAll (.inl ⟨h.nodeCount + i, ?_⟩)))
    exact mem_builtNames.mpr ⟨i, o, ho, rfl, name_of_made hg ho⟩
  · exact contains_enterAll (.inl ⟨n, List.mem_map.mpr ⟨n, hdone n hin, rfl⟩⟩)

theorem given_linkAll (edges : List (AnchorId × AnchorId)) (name : String) (n : NodeId) :
    b.Given h (linkAll edges t) name n ↔ b.Given h t name n := by
  have hsame := SameButPeers.linkAll edges t
  simp only [PartialGraphBuilder.Given, Node.getName, Heap.desc, hsame.node, hsame.op, hsame.nodeCount]

/-! ## Links -/

theorem between_of_ends (hgiven : ∀ name n, names.find name = some n → given name n) {e : AnchorId × AnchorId}
    (he : l.ends ⟨t, names⟩ = some e) : l.Between t given e := by
  cases l with
  | data link =>
    obtain ⟨⟨srcName, outInd⟩, ⟨dstName, inInd⟩⟩ := link
    simp only [BuilderLink.ends, bind_eq_bind, bind_eq_some_iff] at he
    obtain ⟨m, hm, n, hn, a, ha, c, hc, he⟩ := he
    obtain rfl := some_inj.mp he
    exact ⟨m, n, hgiven _ m hm, hgiven _ n hn, ha, hc⟩
  | ctrl link =>
    obtain ⟨srcName, dstName⟩ := link
    simp only [BuilderLink.ends, bind_eq_bind, bind_eq_some_iff] at he
    obtain ⟨m, hm, n, hn, he⟩ := he
    obtain rfl := some_inj.mp he
    exact ⟨m, n, hgiven _ m hm, hgiven _ n hn, rfl⟩

theorem unbuildable_of_refused
    (hgiven : ∀ name n, names.find name = some n → given name n) (hfind : ∀ name n, given name n → ∃ m, names.find name = some m)
    (hl : l.Refused ⟨t, names⟩) : l.Unbuildable t given := by
  have hnone : ∀ {name}, names.find name = none → ∀ n, ¬ given name n := by
    intro name hname n hn
    obtain ⟨m, hm⟩ := hfind name n hn
    exact Option.some_ne_none m (hm.symm.trans hname)
  cases l with
  | data link =>
    obtain ⟨⟨srcName, outInd⟩, ⟨dstName, inInd⟩⟩ := link
    cases hm : names.find srcName with
    | none => exact .inl (hnone hm)
    | some m =>
      cases hn : names.find dstName with
      | none => exact .inr (.inl (hnone hn))
      | some n =>
        refine .inr (.inr ⟨m, n, hgiven _ m hm, hgiven _ n hn, fun a c ha hc hfree => ?_⟩)
        have hends : BuilderLink.ends ⟨t, names⟩ (.data ((srcName, outInd), (dstName, inInd))) = some (a, c) := by
          simp [BuilderLink.ends, hm, hn, ha, hc]
        have haccepts := hl (a, c) hends
        simp [BuilderLink.accepts, hfree] at haccepts
  | ctrl link =>
    obtain ⟨srcName, dstName⟩ := link
    cases hm : names.find srcName with
    | none => exact .inl (hnone hm)
    | some m =>
      cases hn : names.find dstName with
      | none => exact .inr (hnone hn)
      | some n =>
        have hends : BuilderLink.ends ⟨t, names⟩ (.ctrl (srcName, dstName)) =
            some ((t.node m).outControlAnchor, (t.node n).inControlAnchor) := by
          simp [BuilderLink.ends, hm, hn]
        exact absurd (hl _ hends) (by simp [BuilderLink.accepts])

/-! ## Builds -/

theorem adds_linkAll (hg : NodesGrown h g ops t)
    (hgiven : ∀ name n, names.find name = some n → b.Given h t name n) {links : List BuilderLink} {edges : List (AnchorId × AnchorId)}
    (hends : List.Forall₂ (fun l e => l.ends ⟨t, names⟩ = some e) links edges) : b.Adds g ops links h (linkAll edges t) := by
  have hsame := SameButPeers.linkAll edges t
  obtain ⟨k, hlisted⟩ := hg.listed
  refine ⟨⟨by rw [hsame.nodeCount, hg.nodeCount], by rw [hsame.graph, hlisted], fun i o ho => by rw [hsame.node]; exact (hg.made i o ho).1,
    fun n hn => by rw [hsame.node, hg.nodes n hn], fun y hy => by rw [hsame.graph, hg.graphs y hy]⟩, edges, ?_, fun a => ?_⟩
  · have hgivenAll : ∀ name n, names.find name = some n → b.Given h (linkAll edges t) name n := fun name n hn =>
      (given_linkAll edges name n).mpr (hgiven name n hn)
    exact hends.imp fun l e he => between_of_ends hgivenAll ((ends_linkAll l edges ⟨t, names⟩).trans he)
  · rw [peers_linkAll_eq, hg.anchors.peers]

theorem adds_nil (hg : NodesGrown h g ops t) : b.Adds g ops [] h t := by
  have hnone : ∀ name n, OrderedMap.find ([] : OrderedMap String NodeId) name ≠ some n := fun _ _ => nofun
  exact adds_linkAll hg (fun name n hn => absurd hn (hnone name n)) .nil

/-- The phases behind that of the nodes, where this succeeds. -/
theorem build_links (hg : NodesGrown h g ops t) (hops : ops.map some = b.nodes)
    (hnodes : ∀ n, some n ∈ b.existNodes → n < h.nodeCount) {e : BuildError} (he : e.failed = false) :
    ∃ e' s, phases [b.buildExistNodes g, b.buildDataLinks, b.buildCtrlLinks] e
        ⟨t, enterAll [] (builtNames h h.nodeCount ops)⟩ = some (e', s) ∧
      ((e'.failed = false ∧ b.Adds g ops b.links h s.heap) ∨
        (e'.failed = true ∧ ∃ links, b.Adds g ops links h s.heap ∧ b.StopsAt g e ops links h s.heap)) := by
  obtain ⟨done, rest, r, hexist, hrun, hr⟩ := existNodes_run g b.existNodes ⟨t, enterAll [] (builtNames h h.nodeCount ops)⟩
  have hthrough := phases_cons hrun [b.buildDataLinks, b.buildCtrlLinks] e
  obtain ⟨rfl, rfl⟩ | ⟨hsome, x, hx, hnot⟩ := hr
  · rw [append_nil] at hexist
    have hdone : ∀ n, some n ∈ b.existNodes ↔ n ∈ done := fun n => by simp [hexist]
    obtain ⟨built, left, edges, e', hlinks, hphases, hends, hstop⟩ :=
      linkPhases_run b.toComputeGraphBuilder ⟨t, namesOf h t ops done⟩ he
    have hgiven : ∀ name n, (namesOf h t ops done).find name = some n → b.Given h t name n := fun name n =>
      given_of_find hg fun m hm => (hdone m).mpr hm
    have hadds := adds_linkAll hg hgiven hends
    refine ⟨e', ⟨linkAll edges t, namesOf h t ops done⟩, ?_, ?_⟩
    · refine hthrough.trans ?_
      rw [if_neg (by simp [BuildError.after, he])]
      exact hphases
    · obtain ⟨he', rfl⟩ | ⟨he', l, tail, rfl, hrefused⟩ := hstop
      · rw [append_nil] at hlinks
        exact .inl ⟨he', hlinks ▸ hadds⟩
      · refine .inr ⟨he', built, hadds, .link l hops ⟨tail, by rw [hlinks]; simp⟩ ?_⟩
        refine unbuildable_of_refused (fun name n hn => (given_linkAll edges name n).mpr (hgiven name n hn)) (fun name n hn => ?_)
          hrefused
        exact find_of_given hg (fun m hm => (hdone m).mp hm) ((given_linkAll edges name n).mp hn)
  · obtain ⟨msg, rfl⟩ := isSome_iff_exists.mp hsome
    refine ⟨_, _, hthrough.trans (if_pos rfl), .inr ⟨rfl, [], adds_nil hg, .existNode x hops rfl hx fun n hn => ?_⟩⟩
    have hsame : t.node n = h.node n := hg.nodes n (hnodes n (hn ▸ hx))
    exact hsame ▸ hnot n hn

end PartialBuildsAux

open PartialBuildsAux BuilderStepsAux in
/-- A build that returns the graph has added the nodes and links it was asked for, each link between nodes that are given under its
names. Any other has added those before what it stopped at, and left the rest as it was. -/
theorem partialBuild_adds (calls : List PartialGraphCall) (h : Heap) (hs : h.Sound)
    (hnodes : ∀ n, some n ∈ (PartialGraphBuilder.ofCalls calls).existNodes → n < h.nodeCount) (e : BuildError) :
    let b := PartialGraphBuilder.ofCalls calls
    ∃ r s, b.build e { heap := h } = some (r, s) ∧
      match r.1 with
      | some g => b.ownerGraph = some g ∧ ∃ ops, ops.map some = b.nodes ∧ b.Adds g ops b.links h s.heap
      | none => b.ownerGraph = none ∧ s.heap = h ∨ ∃ g ops links, b.ownerGraph = some g ∧ b.Adds g ops links h s.heap ∧
        b.StopsAt g e ops links h s.heap := by
  intro b
  cases howner : b.ownerGraph with
  | none =>
    refine ⟨(none, ⟨true, "graph is NULL."⟩), { heap := h }, ?_, .inl ⟨rfl, rfl⟩⟩
    rw [PartialGraphBuilder.build, howner]
    rfl
  | some g =>
    obtain ⟨ops, rest, r, t, hops, hnodesRun, hg, hnames, hr⟩ := buildNodes_run g b.nodes { heap := h } hs
    have hbuild : ∀ {e' : BuildError} {s : NamedNodes} {result : Option GraphId}, (if e'.failed then none else some g) = result →
        phases [b.buildNodes, b.buildExistNodes g, b.buildDataLinks, b.buildCtrlLinks] e { heap := h } = some (e', s) →
          b.build e { heap := h } = some ((result, e'), s) := by
      rintro e' s _ rfl hphases
      rw [PartialGraphBuilder.build, howner]
      exact Cmd.bind_of_eq hphases
    have hfirst : b.buildNodes { heap := h } = some (r, t) := by
      rw [ComputeGraphBuilder.buildNodes, howner]
      exact hnodesRun
    have hthrough := phases_cons hfirst [b.buildExistNodes g, b.buildDataLinks, b.buildCtrlLinks] e
    obtain ⟨rfl, rfl⟩ | ⟨hsome, tail, rfl⟩ := hr
    · rw [append_nil] at hops
      cases he : e.failed with
      | true =>
        have hfailed : (e.after none).failed = true := he
        exact ⟨(none, _), _, hbuild (if_pos hfailed) (hthrough.trans (if_pos hfailed)),
          .inr ⟨g, ops, [], rfl, adds_nil hg, .error hops.symm rfl he⟩⟩
      | false =>
        have hnamesOf : t = ⟨t.heap, enterAll [] (builtNames h h.nodeCount ops)⟩ := by rw [← hnames]
        have hgoes : ¬ (e.after none).failed = true := by simp [BuildError.after, he]
        obtain ⟨e', s, hphases, hresult⟩ := build_links hg hops.symm hnodes he
        rw [← hnamesOf] at hphases
        have hall := hthrough.trans ((if_neg hgoes).trans hphases)
        obtain ⟨he', hadds⟩ | ⟨he', links, hadds, hstops⟩ := hresult
        · exact ⟨(some g, e'), s, hbuild (if_neg (by rw [he']; exact Bool.false_ne_true)) hall, rfl, ops, hops.symm, hadds⟩
        · exact ⟨(none, e'), s, hbuild (if_pos he') hall, .inr ⟨g, ops, links, rfl, hadds, hstops⟩⟩
    · obtain ⟨msg, rfl⟩ := isSome_iff_exists.mp hsome
      exact ⟨(none, _), _, hbuild (if_pos rfl) (hthrough.trans (if_pos rfl)),
        .inr ⟨g, ops, [], rfl, adds_nil hg, .nullOp ⟨tail, by rw [hops]; simp⟩ rfl⟩⟩

namespace PartialBuildsWitness

/-- Two descriptors. -/
def making : List LinkCall :=
  [.newOp ((OpDesc.make "source" "Add").addOutputDesc {}).2, .newOp ((OpDesc.make "sink" "Add").addInputDesc {}).2]

def twoOps : Heap := (LinkCall.runAll making).getD .empty

theorem sound_twoOps : twoOps.Sound := sound_runAll making _ (by decide +kernel) rfl

/-- Two nodes and a link between them. -/
def linked : List PartialGraphCall :=
  [.setOwnerGraph (some 0), .addNode (some 0), .addNode (some 1), .addDataLink "source" 0 "sink" 0]

theorem partialBuild_linked : ∃ s, ((PartialGraphBuilder.ofCalls linked).build {} { heap := twoOps }).map Prod.snd = some s ∧
    ∃ ops, ops.map some = [some 0, some 1] ∧
      (PartialGraphBuilder.ofCalls linked).Adds 0 ops [.data (("source", 0), ("sink", 0))] twoOps s.heap := by
  obtain ⟨r, s, hrun, hadds⟩ := partialBuild_adds linked twoOps sound_twoOps (fun n hn => nomatch hn) {}
  refine ⟨s, by rw [hrun]; rfl, ?_⟩
  have hgraph : ((PartialGraphBuilder.ofCalls linked).build {} { heap := twoOps }).map (fun r => r.1.1) = some (some 0) := by
    decide +kernel
  rw [hrun] at hgraph
  have hr : r.1 = some 0 := some_inj.mp hgraph
  rw [hr] at hadds
  exact hadds.2

/-- A node is added before a null pointer is found among the existing ones, and stays. -/
theorem partialBuild_false : ¬ ∀ (calls : List PartialGraphCall) (h : Heap), h.Sound →
    (∀ n, some n ∈ (PartialGraphBuilder.ofCalls calls).existNodes → n < h.nodeCount) → ∀ (e : BuildError) r s,
      (PartialGraphBuilder.ofCalls calls).build e { heap := h } = some (r, s) → r.1 = none →
        ∀ g, (PartialGraphBuilder.ofCalls calls).ownerGraph = some g → (s.heap.graph g).nodes = (h.graph g).nodes := by
  intro hall
  have hleaves := hall [.setOwnerGraph (some 0), .addNode (some 0), .addExistNode none] twoOps sound_twoOps
    (fun n hn => by simp [PartialGraphBuilder.ofCalls, PartialGraphBuilder.call] at hn) {} _ _ rfl rfl 0 rfl
  exact absurd hleaves (by decide +kernel)

end PartialBuildsWitness

end Metadef
