import Metadef.GraphBuilders
import Metadef.Lemmas.LinkLists

/-!
# Steps of graph builders

What building a list of nodes and a list of links makes of the objects. A phase that fails has built what comes before the first item
it cannot build.
-/

namespace Metadef

open List Option

/-! ## Nodes -/

/-- New nodes over descriptors were listed last in a graph. -/
structure NodesGrown (h : Heap) (g : GraphId) (ops : List OpId) (t : Heap) : Prop where
  anchors : NewNodesAux.AnchorsGrown h t
  opCount : t.opCount = h.opCount
  nodeCount : t.nodeCount = h.nodeCount + ops.length
  graphCount : t.graphCount = h.graphCount
  descs : ∀ p, ∃ i, t.op p = (h.op p).setId i
  nodes : ∀ m < h.nodeCount, t.node m = h.node m
  graphs : ∀ y, y ≠ g → t.graph y = h.graph y
  listed : ∃ k, t.graph g = { h.graph g with nodes := (h.graph g).nodes ++ List.range' h.nodeCount ops.length, directNodesSize := k }
  made : ∀ i o, ops[i]? = some o → (t.node (h.nodeCount + i)).op = o ∧
    (t.node (h.nodeCount + i)).inDataAnchors.length = (h.op o).getAllInputsSize ∧
      (t.node (h.nodeCount + i)).outDataAnchors.length = (h.op o).getOutputsSize

/-- The names of nodes that are built, numbered from one on. -/
def builtNames (h : Heap) : NodeId → List OpId → List (String × NodeId)
  | _, [] => []
  | n, o :: ops => ((h.op o).getName, n) :: builtNames h (n + 1) ops

/-- Enters names one after the other. -/
def enterAll (names : OrderedMap String NodeId) (entries : List (String × NodeId)) : OrderedMap String NodeId :=
  entries.foldl (fun names e => names.assign e.1 e.2) names

/-! ## Links -/

/-- A link that a builder is to build. -/
inductive BuilderLink where
  | data (link : (String × UInt32) × (String × UInt32))
  | ctrl (link : String × String)

namespace BuilderLink

def build : BuilderLink → Cmd NamedNodes (Option String)
  | data link => ComputeGraphBuilder.buildDataLink link
  | ctrl link => ComputeGraphBuilder.buildCtrlLink link

/-- The anchors a link is between, where there are nodes under its names that have them. -/
def ends (s : NamedNodes) : BuilderLink → Option (AnchorId × AnchorId)
  | data ((srcName, outInd), (dstName, inInd)) => do
    let src ← s.nodeNames.find srcName
    let dst ← s.nodeNames.find dstName
    let out ← Node.getOutDataAnchor s.heap src (anchorIndex outInd)
    let inn ← Node.getInDataAnchor s.heap dst (anchorIndex inInd)
    return (out, inn)
  | ctrl (srcName, dstName) => do
    let src ← s.nodeNames.find srcName
    let dst ← s.nodeNames.find dstName
    return ((s.heap.node src).outControlAnchor, (s.heap.node dst).inControlAnchor)

/-- A data input takes one link only. -/
def accepts (h : Heap) : BuilderLink → AnchorId → Bool
  | data _, dst => (h.peers dst).isEmpty
  | ctrl _, _ => true

/-- A link that cannot be built. -/
def Refused (s : NamedNodes) (l : BuilderLink) : Prop := ∀ e, l.ends s = some e → l.accepts s.heap e.2 = false

end BuilderLink

/-- The links of a builder, in the order they are built. -/
def ComputeGraphBuilder.links (b : ComputeGraphBuilder) : List BuilderLink := b.dataLinks.map .data ++ b.ctrlLinks.map .ctrl

namespace BuilderStepsAux

open Cmd LinkListsAux NewNodesAux NamedNodes

variable {h t u : Heap} {g : GraphId}

/-! ## Running phases -/

section

variable {σ α : Type} {s : σ}

theorem eachItem_append (f : α → Cmd σ (Option String)) (l l' : List α) (s : σ) :
    eachItem f (l ++ l') s = (do let some msg ← eachItem f l | eachItem f l'
                                 return some msg : Cmd σ (Option String)) s := by
  induction l generalizing s with
  | nil => rfl
  | cons a l ih =>
    rw [cons_append, eachItem, eachItem]
    simp only [bind, StateT.bind]
    cases f a s with
    | none => rfl
    | some r =>
      obtain ⟨e, t⟩ := r
      cases e with
      | none => exact ih t
      | some msg => rfl

theorem eachItem_stops {f : α → Cmd σ (Option String)} {a : α} {msg : String} {t : σ} (hf : f a s = some (some msg, t)) (l : List α) :
    eachItem f (a :: l) s = some (some msg, t) := by
  rw [eachItem, bind_of_eq hf]
  rfl

theorem eachItem_map {β : Type} (f : α → Cmd σ (Option String)) (k : β → α) (l : List β) :
    eachItem f (l.map k) = eachItem (fun b => f (k b)) l := by
  induction l with
  | nil => rfl
  | cons b l ih => rw [map_cons, eachItem, eachItem, ih]

theorem phases_cons {p : Cmd σ (Option String)} {r : Option String} {t : σ} (hp : p s = some (r, t))
    (rest : List (Cmd σ (Option String))) (e : BuildError) :
    phases (p :: rest) e s = if (e.after r).failed then some (e.after r, t) else phases rest (e.after r) t := by
  rw [phases, bind_of_eq hp]
  split <;> rfl

/-- The loops of two phases over items are one over all of them. -/
theorem phases_eachItem (f : α → Cmd σ (Option String)) (l l' : List α) {e : BuildError} (he : e.failed = false) {r : Option String}
    {t : σ} (hrun : eachItem f (l ++ l') s = some (r, t)) :
    phases [eachItem f l, eachItem f l'] e s = some (e.after r, t) := by
  rw [eachItem_append] at hrun
  obtain ⟨r₁, u, hfirst, hrest⟩ := bind_eq_some.mp hrun
  rw [phases_cons hfirst]
  cases r₁ with
  | some msg =>
    obtain ⟨rfl, rfl⟩ := of_return hrest
    exact if_pos rfl
  | none =>
    have hrest : eachItem f l' u = some (r, t) := hrest
    rw [if_neg (by simp [BuildError.after, he]), phases_cons hrest]
    split <;> rfl

end

theorem onHeap_of_eq {α : Type} {c : Cmd Heap α} {s : NamedNodes} {a : α} {t : Heap} (hc : c s.heap = some (a, t)) :
    onHeap c s = some (a, { s with heap := t }) := by
  rw [onHeap, hc]
  rfl

/-! ## Nodes -/

theorem nodesGrown_nil (hs : h.Sound) (g : GraphId) : NodesGrown h g [] h where
  anchors := ⟨hs, rfl, Nat.le_refl _, fun _ _ => rfl, fun n hn hlt => absurd hlt (Nat.not_lt.mpr hn)⟩
  opCount := rfl
  nodeCount := rfl
  graphCount := rfl
  descs p := ⟨(h.op p).getId, rfl⟩
  nodes _ _ := rfl
  graphs _ _ := rfl
  listed := ⟨(h.graph g).directNodesSize, by simp⟩
  made _ _ ho := nomatch ho

theorem AnchorsGrown.trans (ht : AnchorsGrown h t) (hu : AnchorsGrown t u)
    (hnodes : ∀ m < t.nodeCount, u.node m = t.node m) : AnchorsGrown h u where
  sound := hu.sound
  peers := hu.peers.trans ht.peers
  anchorCount := ht.anchorCount.trans hu.anchorCount
  anchor a ha := (hu.anchor a (Nat.lt_of_lt_of_le ha ht.anchorCount)).trans (ht.anchor a ha)
  fresh n hn hlt k a ha := by
    by_cases hold : n < t.nodeCount
    · refine ht.fresh n hn hold k a ?_
      cases k <;> simpa [Heap.anchorsOf, hnodes n hold] using ha
    · exact ht.anchorCount.trans (hu.fresh n (Nat.not_lt.mp hold) hlt k a ha)

/-- A node is built before others. -/
theorem nodesGrown_cons {o : OpId} {ops : List OpId} (ht : NodeAdded h g o t) (hu : NodesGrown t g ops u) :
    NodesGrown h g (o :: ops) u where
  anchors := AnchorsGrown.trans ht.anchors hu.anchors hu.nodes
  opCount := hu.opCount.trans ht.opCount
  nodeCount := by rw [hu.nodeCount, ht.nodeCount, length_cons]; omega
  graphCount := hu.graphCount.trans ht.graphCount
  descs p := by
    obtain ⟨i, hi⟩ := hu.descs p
    by_cases hp : p = o
    · obtain ⟨j, hj⟩ := ht.desc
      exact ⟨i, by rw [hi, hp, hj]; rfl⟩
    · exact ⟨i, by rw [hi, ht.ops p hp]⟩
  nodes m hm := (hu.nodes m (by rw [ht.nodeCount]; omega)).trans (ht.nodes m hm)
  graphs y hy := (hu.graphs y hy).trans (ht.graphs y hy)
  listed := by
    obtain ⟨k, hk⟩ := hu.listed
    refine ⟨k, ?_⟩
    rw [hk, ht.listed, ht.nodeCount, length_cons, range'_succ]
    simp [ComputeGraph.pushBackToNodeList]
  made i p hp := by
    have hsize : ∀ p, (t.op p).getAllInputsSize = (h.op p).getAllInputsSize ∧ (t.op p).getOutputsSize = (h.op p).getOutputsSize := by
      intro p
      by_cases hpo : p = o
      · obtain ⟨j, hj⟩ := ht.desc
        rw [hpo, hj]
        exact ⟨rfl, rfl⟩
      · rw [ht.ops p hpo]
        exact ⟨rfl, rfl⟩
    cases i with
    | zero =>
      obtain rfl : o = p := by simpa using hp
      rw [Nat.add_zero, hu.nodes h.nodeCount (by rw [ht.nodeCount]; omega)]
      exact ⟨ht.op, ht.inputs, ht.outputs⟩
    | succ i =>
      have hmade := hu.made i p (by simpa using hp)
      have hnode : t.nodeCount + i = h.nodeCount + (i + 1) := by rw [ht.nodeCount]; omega
      rwa [hnode, (hsize p).1, (hsize p).2] at hmade

theorem builtNames_congr (hnames : ∀ o, (t.op o).getName = (h.op o).getName) : ∀ (ops : List OpId) (n : NodeId),
    builtNames t n ops = builtNames h n ops
  | [], _ => rfl
  | o :: ops, n => by rw [builtNames, builtNames, hnames o, builtNames_congr hnames ops]

theorem NodeAdded.names {o : OpId} (ht : NodeAdded h g o t) (p : OpId) : (t.op p).getName = (h.op p).getName := by
  by_cases hp : p = o
  · obtain ⟨i, hi⟩ := ht.desc
    rw [hp, hi]
    rfl
  · rw [ht.ops p hp]

/-- The nodes before the first missing descriptor are built. -/
theorem buildNodes_run (g : GraphId) : ∀ (nodes : List (Option OpId)) (s : NamedNodes), s.heap.Sound →
    ∃ ops rest r t, nodes = ops.map some ++ rest ∧ eachItem (ComputeGraphBuilder.buildNode g) nodes s = some (r, t) ∧
      NodesGrown s.heap g ops t.heap ∧ t.nodeNames = enterAll s.nodeNames (builtNames s.heap s.heap.nodeCount ops) ∧
        (r = none ∧ rest = [] ∨ r.isSome ∧ ∃ tail, rest = none :: tail)
  | [], s, hs => ⟨[], [], none, s, rfl, rfl, nodesGrown_nil hs g, rfl, .inl ⟨rfl, rfl⟩⟩
  | none :: nodes, s, hs =>
    ⟨[], none :: nodes, some _, s, rfl, rfl, nodesGrown_nil hs g, rfl, .inr ⟨rfl, nodes, rfl⟩⟩
  | some o :: nodes, s, hs => by
    obtain ⟨t, ht, hadded⟩ := addOpNode_adds hs g o
    have hstep : ComputeGraphBuilder.buildNode g (some o) s =
        some (none, { heap := t, nodeNames := s.nodeNames.assign (s.heap.op o).getName s.heap.nodeCount }) := by
      unfold ComputeGraphBuilder.buildNode
      dsimp only
      rw [get_bind_apply, bind_of_eq (onHeap_of_eq ht)]
      rfl
    obtain ⟨ops, rest, r, u, hnodes, hrun, hgrown, hnames, hr⟩ := buildNodes_run g nodes
      { heap := t, nodeNames := s.nodeNames.assign (s.heap.op o).getName s.heap.nodeCount } hadded.anchors.sound
    refine ⟨o :: ops, rest, r, u, by rw [hnodes]; rfl, ?_, nodesGrown_cons hadded hgrown, ?_, hr⟩
    · rw [eachItem, bind_of_eq hstep]
      exact hrun
    · rw [hnames, builtNames_congr (NodeAdded.names hadded)]
      dsimp only
      rw [hadded.nodeCount]
      rfl

/-! ## Names -/

theorem find_enterAll : ∀ {entries : List (String × NodeId)} {names : OrderedMap String NodeId} {name : String} {n : NodeId},
    (enterAll names entries).find name = some n → (name, n) ∈ entries ∨ names.find name = some n
  | [], _, _, _, h => .inr h
  | e :: entries, names, name, n, h => by
    obtain hin | hfind := @find_enterAll entries _ _ _ h
    · exact .inl (mem_cons_of_mem _ hin)
    · rw [OrderedMap.find_assign] at hfind
      split at hfind
      · next hname =>
        obtain rfl := Option.some_inj.mp hfind
        exact .inl (hname ▸ mem_cons_self)
      · exact .inr hfind

theorem contains_enterAll : ∀ {entries : List (String × NodeId)} {names : OrderedMap String NodeId} {name : String},
    (∃ n, (name, n) ∈ entries) ∨ (∃ n, names.find name = some n) → ∃ n, (enterAll names entries).find name = some n
  | [], _, _, h => h.resolve_left fun ⟨_, hin⟩ => nomatch hin
  | e :: entries, names, name, h => by
    refine @contains_enterAll entries _ _ ?_
    rw [OrderedMap.find_assign]
    by_cases hname : name = e.1
    · exact .inr ⟨e.2, if_pos hname⟩
    · rw [if_neg hname]
      refine h.imp_left fun ⟨n, hin⟩ => ⟨n, ?_⟩
      exact (mem_cons.mp hin).resolve_left fun heq => hname (congrArg Prod.fst heq)

theorem mem_builtNames : ∀ {ops : List OpId} {n m : NodeId} {name : String},
    (name, m) ∈ builtNames h n ops ↔ ∃ i o, ops[i]? = some o ∧ m = n + i ∧ name = (h.op o).getName
  | [], _, _, _ => by simp [builtNames]
  | o :: ops, n, m, name => by
    rw [builtNames, mem_cons, mem_builtNames, Prod.mk.injEq]
    constructor
    · rintro (⟨rfl, rfl⟩ | ⟨i, p, hp, rfl, rfl⟩)
      · exact ⟨0, o, rfl, rfl, rfl⟩
      · exact ⟨i + 1, p, hp, Nat.add_right_comm n 1 i, rfl⟩
    · rintro ⟨i, p, hp, rfl, rfl⟩
      cases i with
      | zero =>
        obtain rfl : o = p := by simpa using hp
        exact .inl ⟨rfl, rfl⟩
      | succ i => exact .inr ⟨i, p, by simpa using hp, (Nat.add_right_comm n 1 i).symm, rfl⟩

/-! ## Links -/

/-- A data edge is added where both anchors are there and the input is free, else nothing is. -/
theorem addDataEdge_run (src dst : Option AnchorId) (h : Heap) : (∃ a b, src = some a ∧ dst = some b ∧ h.peers b = [] ∧
      GraphUtils.addDataEdge src dst h = some (true, Anchor.linked h a b)) ∨
      (∀ a b, src = some a → dst = some b → h.peers b ≠ []) ∧ GraphUtils.addDataEdge src dst h = some (false, h) := by
  cases src with
  | none => exact .inr ⟨(fun _ _ h => nomatch h), rfl⟩
  | some a =>
    cases dst with
    | none => exact .inr ⟨(fun _ _ _ h => nomatch h), rfl⟩
    | some b =>
      by_cases hfree : h.peers b = []
      · refine .inl ⟨a, b, rfl, rfl, hfree, ?_⟩
        simp [GraphUtils.addDataEdge, GraphUtils.addEdgeBy, OutDataAnchor.linkTo, Anchor.link, hfree]
      · refine .inr ⟨fun _ _ _ hb => Option.some_inj.mp hb ▸ hfree, ?_⟩
        simp [GraphUtils.addDataEdge, GraphUtils.addEdgeBy, OutDataAnchor.linkTo, Anchor.link, hfree]

theorem addControlEdge_run (a b : AnchorId) (h : Heap) :
    GraphUtils.addControlEdge (some a) (some b) h = some (true, Anchor.linked h a b) := rfl

/-- A link is built between its ends, or refused. -/
theorem build_run (l : BuilderLink) (s : NamedNodes) : (∃ e, l.ends s = some e ∧ l.accepts s.heap e.2 = true ∧
      l.build s = some (none, { s with heap := Anchor.linked s.heap e.1 e.2 })) ∨
      l.Refused s ∧ ∃ msg, l.build s = some (some msg, s) := by
  cases l with
  | data link =>
    obtain ⟨⟨srcName, outInd⟩, ⟨dstName, inInd⟩⟩ := link
    unfold BuilderLink.Refused BuilderLink.ends BuilderLink.build ComputeGraphBuilder.buildDataLink
    dsimp only
    rw [get_bind_apply]
    cases hsrc : s.nodeNames.find srcName with
    | none => exact .inr ⟨nofun, _, rfl⟩
    | some m =>
      cases hdst : s.nodeNames.find dstName with
      | none => exact .inr ⟨nofun, _, rfl⟩
      | some n =>
        dsimp only [bind_eq_bind, bind_some]
        obtain ⟨a, b, ha, hb, hfree, hrun⟩ | ⟨hnot, hrun⟩ := addDataEdge_run
            (Node.getOutDataAnchor s.heap m (anchorIndex outInd)) (Node.getInDataAnchor s.heap n (anchorIndex inInd)) s.heap
        · refine .inl ⟨(a, b), by rw [ha, hb]; rfl, by simp [BuilderLink.accepts, hfree], ?_⟩
          rw [bind_of_eq (onHeap_of_eq hrun)]
          rfl
        · refine .inr ⟨fun e he => ?_, _, by rw [bind_of_eq (onHeap_of_eq hrun)]; rfl⟩
          simp only [bind_eq_some_iff] at he
          obtain ⟨a, ha, b, hb, he⟩ := he
          obtain rfl := Option.some_inj.mp he
          simp [BuilderLink.accepts, hnot a b ha hb]
  | ctrl link =>
    obtain ⟨srcName, dstName⟩ := link
    unfold BuilderLink.Refused BuilderLink.ends BuilderLink.build ComputeGraphBuilder.buildCtrlLink
    dsimp only
    rw [get_bind_apply]
    cases hsrc : s.nodeNames.find srcName with
    | none => exact .inr ⟨nofun, _, rfl⟩
    | some m =>
      cases hdst : s.nodeNames.find dstName with
      | none => exact .inr ⟨nofun, _, rfl⟩
      | some n =>
        refine .inl ⟨_, rfl, rfl, ?_⟩
        dsimp only
        rw [bind_of_eq (onHeap_of_eq (addControlEdge_run _ _ s.heap))]
        rfl

/-- Linking leaves which anchors a link is between. -/
theorem ends_linked (s : NamedNodes) (a b : AnchorId) (l : BuilderLink) :
    l.ends { s with heap := Anchor.linked s.heap a b } = l.ends s := by
  cases l <;> rfl

theorem ends_linkAll (l : BuilderLink) : ∀ (edges : List (AnchorId × AnchorId)) (s : NamedNodes),
    l.ends { s with heap := linkAll edges s.heap } = l.ends s
  | [], _ => rfl
  | e :: edges, s => (ends_linkAll l edges { s with heap := Anchor.linked s.heap e.1 e.2 }).trans (ends_linked s e.1 e.2 l)

/-- The links before the first that cannot be built are built. -/
theorem links_run : ∀ (links : List BuilderLink) (s : NamedNodes), ∃ done rest edges r, links = done ++ rest ∧
    eachItem BuilderLink.build links s = some (r, { s with heap := linkAll edges s.heap }) ∧
      List.Forall₂ (fun l e => l.ends s = some e) done edges ∧
        (r = none ∧ rest = [] ∨ r.isSome ∧ ∃ l tail, rest = l :: tail ∧ l.Refused { s with heap := linkAll edges s.heap })
  | [], s => ⟨[], [], [], none, rfl, rfl, .nil, .inl ⟨rfl, rfl⟩⟩
  | l :: links, s => by
    obtain ⟨e, he, -, hrun⟩ | ⟨hrefused, msg, hrun⟩ := build_run l s
    · obtain ⟨done, rest, edges, r, hlinks, hrest, hends, hr⟩ :=
        links_run links { s with heap := Anchor.linked s.heap e.1 e.2 }
      refine ⟨l :: done, rest, e :: edges, r, by rw [hlinks]; rfl, ?_, .cons he (hends.imp fun l' e' h => ?_), hr⟩
      · rw [eachItem, bind_of_eq hrun]
        exact hrest
      · exact (ends_linked s e.1 e.2 l').symm.trans h
    · exact ⟨[], l :: links, [], some msg, rfl, eachItem_stops hrun links, .nil, .inr ⟨rfl, l, links, rfl, hrefused⟩⟩

/-- Data links are built before control links. -/
theorem linkPhases_run (b : ComputeGraphBuilder) (s : NamedNodes) {e : BuildError} (he : e.failed = false) :
    ∃ done rest edges e', b.links = done ++ rest ∧
      phases [b.buildDataLinks, b.buildCtrlLinks] e s = some (e', { s with heap := linkAll edges s.heap }) ∧
        List.Forall₂ (fun l e => l.ends s = some e) done edges ∧ (e'.failed = false ∧ rest = [] ∨
          e'.failed = true ∧ ∃ l tail, rest = l :: tail ∧ l.Refused { s with heap := linkAll edges s.heap }) := by
  obtain ⟨done, rest, edges, r, hlinks, hrun, hends, hr⟩ := links_run b.links s
  have hdata : b.buildDataLinks = eachItem BuilderLink.build (b.dataLinks.map .data) := by
    rw [eachItem_map]
    rfl
  have hctrl : b.buildCtrlLinks = eachItem BuilderLink.build (b.ctrlLinks.map .ctrl) := by
    rw [eachItem_map]
    rfl
  refine ⟨done, rest, edges, e.after r, hlinks, ?_, hends, ?_⟩
  · rw [hdata, hctrl]
    exact phases_eachItem _ _ _ he hrun
  · obtain ⟨rfl, hrest⟩ | ⟨hr, hrest⟩ := hr
    · exact .inl ⟨he, hrest⟩
    · obtain ⟨msg, rfl⟩ := Option.isSome_iff_exists.mp hr
      exact .inr ⟨rfl, hrest⟩

end BuilderStepsAux

end Metadef
