import Metadef.Edges
import Metadef.Lemmas.GraphSteps
import Metadef.Theorems.LinkSymmetry

/-!
# Equal graphs are wired alike

Graphs that compare equal have nodes of the same names, and each anchor of a node leads to nodes of the same names. Which anchors
of those nodes it leads to is not compared, so the edges are the same where there is one between two nodes.
-/

namespace Metadef

open List Bool

namespace Heap

variable (h : Heap)

def nodeNames (g : GraphId) : List String := (h.graph g).nodes.map (Node.getName h)

/-- An edge between nodes of a graph. -/
def HasEdge (g : GraphId) (e : EdgeName) : Prop :=
  ∃ a, ∃ b ∈ h.peers a, (h.kind a).isIn = false ∧ h.owner a ∈ (h.graph g).nodes ∧ h.owner b ∈ (h.graph g).nodes ∧
    h.edgeName a b = e

/-- An edge that is the only one from its source to its target. -/
def OnlyEdge (g : GraphId) (e : EdgeName) : Prop :=
  h.HasEdge g e ∧ ∀ d, h.HasEdge g d → d.source = e.source → d.dest = e.dest → d = e

/-- The names of the nodes an anchor is linked to, in the order of linking. -/
def peerNames (a : AnchorId) : List String := (h.peers a).map fun b => Node.getName h (h.owner b)

/-- What the anchors of a node of a class are linked to. -/
def linkedNames (n : NodeId) (k : AnchorKind) : List (List String) := (h.anchorsOf n k).map h.peerNames

/-- The anchors of nodes of one name are linked to nodes of the same names, as often and in the same order. -/
def LinkedAlike (g r : GraphId) : Prop :=
  ∀ n ∈ (h.graph g).nodes, ∀ m ∈ (h.graph r).nodes, Node.getName h n = Node.getName h m →
    ∀ k, h.linkedNames n k = h.linkedNames m k

/-- Two graphs are wired alike: they have nodes of the same names, whose anchors are linked to nodes of the same names, and the
edges that are the only ones between their nodes are the same. -/
structure SameWiring (g r : GraphId) : Prop where
  names : ∀ name, name ∈ h.nodeNames g ↔ name ∈ h.nodeNames r
  linked : h.LinkedAlike g r
  only : ∀ e, h.OnlyEdge g e ↔ h.OnlyEdge r e

end Heap

namespace EqualWiringAux

open Heap

variable {h : Heap} {g r : GraphId} {n m : NodeId} {k : AnchorKind} {a b : AnchorId}

/-! ## What the comparisons compare -/

/-- Lists of one length whose items compare equal place by place have equal images. -/
theorem map_eq_of_zip_all {α β : Type} {f : α → β} {p : α → α → Bool} (hp : ∀ x y, p x y = true → f x = f y) :
    ∀ {l l' : List α}, l.length = l'.length → ((l.zip l').all fun e => p e.1 e.2) = true → l.map f = l'.map f := by
  intro l
  induction l with
  | nil =>
    intro l' hlen _
    obtain rfl : l' = [] := length_eq_zero_iff.mp hlen.symm
    rfl
  | cons x l ih =>
    intro l' hlen hall
    cases l' with
    | nil => simp at hlen
    | cons y l' =>
      simp only [zip_cons_cons, all_cons, and_eq_true] at hall
      rw [map_cons, map_cons, hp x y hall.1, ih (Nat.succ.inj hlen) hall.2]

theorem peerNames_eq (he : Node.nodeAnchorIsEqual h a b = true) : h.peerNames a = h.peerNames b := by
  simp only [Node.nodeAnchorIsEqual, and_eq_true, decide_eq_true_eq] at he
  exact map_eq_of_zip_all (p := fun x y => Node.getName h (h.owner x) = Node.getName h (h.owner y)) (by simp) he.1 he.2

/-- Data anchors and a control anchor that is compared only where it is linked. -/
theorem connects_eq {l l' : List AnchorId} {P Q : Prop} [Decidable P] [Decidable Q] (hlen : l.length = l'.length)
    (hsize : (l ++ if P then [a] else []).length - l.length = (l' ++ if Q then [b] else []).length - l'.length)
    (hall : (((l ++ if P then [a] else []).zip (l' ++ if Q then [b] else [])).all fun e =>
      Node.nodeAnchorIsEqual h e.1 e.2) = true)
    (hP : ¬ P → h.peers a = []) (hQ : ¬ Q → h.peers b = []) :
    l.map h.peerNames = l'.map h.peerNames ∧ h.peerNames a = h.peerNames b := by
  have hboth : (l ++ if P then [a] else []).length = (l' ++ if Q then [b] else []).length := by
    rw [length_append, length_append] at hsize ⊢
    omega
  have hmap := map_eq_of_zip_all (f := h.peerNames) (fun x y he => peerNames_eq he) hboth hall
  rw [map_append, map_append] at hmap
  obtain ⟨hdata, hcontrol⟩ := List.append_inj hmap (by simpa using hlen)
  refine ⟨hdata, ?_⟩
  by_cases hp : P
  · by_cases hq : Q
    · simpa [hp, hq] using hcontrol
    · simp [hp, hq] at hcontrol
  · by_cases hq : Q
    · simp [hp, hq] at hcontrol
    · simp [peerNames, hP hp, hQ hq]

/-- An anchor whose peers are of two classes has none when it has none of either. -/
theorem peers_nil {l : AnchorKind} (hkinds : ∀ b ∈ h.peers a, h.kind b = k ∨ h.kind b = l)
    (hno : ¬ (0 < (Anchor.getPeersOf h a k).length ∨ 0 < (Anchor.getPeersOf h a l).length)) : h.peers a = [] := by
  refine eq_nil_iff_forall_not_mem.mpr fun b hb => hno ?_
  rcases hkinds b hb with hk | hk
  · exact .inl (length_pos_of_mem (mem_filter.mpr ⟨hb, by simpa using hk⟩))
  · exact .inr (length_pos_of_mem (mem_filter.mpr ⟨hb, by simpa using hk⟩))

/-- Nodes that compare equal have the same name, and their anchors are linked to nodes of the same names. -/
theorem linkedNames_of_isEqual (hs : h.Sound) (hd : h.Directed) (hn : n < h.nodeCount) (hm : m < h.nodeCount)
    (he : Node.isEqual h n m = true) :
    Node.getName h n = Node.getName h m ∧ ∀ k, h.linkedNames n k = h.linkedNames m k := by
  simp only [Node.isEqual, and_eq_true] at he
  obtain ⟨⟨hmembers, hin⟩, hout⟩ := he
  have hsources : ∀ x < h.nodeCount, ∀ b ∈ h.peers (h.node x).inControlAnchor, h.kind b = .outControl ∨ h.kind b = .outData := by
    intro x hx b hb
    have hdir := hd _ b hb
    rw [hs.laid.kind x hx .inControl _ mem_cons_self] at hdir
    cases hk : h.kind b <;> simp_all [AnchorKind.isIn]
  have htargets : ∀ x < h.nodeCount, ∀ b ∈ h.peers (h.node x).outControlAnchor, h.kind b = .inControl ∨ h.kind b = .inData := by
    intro x hx b hb
    have hdir := hd _ b hb
    rw [hs.laid.kind x hx .outControl _ mem_cons_self] at hdir
    cases hk : h.kind b <;> simp_all [AnchorKind.isIn]
  simp only [Node.nodeInConnectsAreEqual, Node.getAllInAnchors, and_eq_true, decide_eq_true_eq, or_eq_true] at hin
  simp only [Node.nodeOutConnectsAreEqual, Node.getAllOutAnchors, and_eq_true, decide_eq_true_eq, or_eq_true] at hout
  obtain ⟨hinData, hinControl⟩ := connects_eq hin.1.1 hin.1.2 hin.2 (peers_nil (hsources n hn)) (peers_nil (hsources m hm))
  obtain ⟨houtData, houtControl⟩ := connects_eq hout.1.1 hout.1.2 hout.2 (peers_nil (htargets n hn)) (peers_nil (htargets m hm))
  refine ⟨?_, fun k => ?_⟩
  · simp only [Node.nodeMembersAreEqual, OpDesc.isEqual, OpDesc.opDescAttrsAreEqual, and_eq_true,
      decide_eq_true_eq] at hmembers
    exact hmembers.1.1.1.1.1
  · cases k with
    | inData => exact hinData
    | outData => exact houtData
    | inControl => simp [linkedNames, anchorsOf, hinControl]
    | outControl => simp [linkedNames, anchorsOf, houtControl]

/-! ## Edges -/

theorem linkedAlike_symm (hl : h.LinkedAlike g r) : h.LinkedAlike r g := fun n hn m hm hname k =>
  (hl m hm n hn hname.symm k).symm

/-- The anchor of the other node at the place of an anchor. -/
theorem corresponding (hs : h.Sound) (hn : n < h.nodeCount) (hm : m < h.nodeCount)
    (hl : h.linkedNames n k = h.linkedNames m k) (ha : a ∈ h.anchorsOf n k) :
    ∃ a' ∈ h.anchorsOf m k, h.anchorIdx a' = h.anchorIdx a ∧ h.peerNames a' = h.peerNames a := by
  obtain ⟨i, hi⟩ := getElem?_of_mem ha
  have hnames : (h.linkedNames m k)[i]? = some (h.peerNames a) := by
    rw [← hl]
    simp [linkedNames, hi]
  obtain ⟨a', hi', hpeers⟩ := getElem?_map ▸ hnames |> Option.map_eq_some_iff.mp
  have ha' := mem_of_getElem? hi'
  refine ⟨a', ha', ?_, hpeers⟩
  unfold anchorIdx
  rw [hs.laid.kind n hn k a ha, hs.laid.kind m hm k a' ha']
  cases hk : k.isData with
  | false => rfl
  | true => rw [hs.laid.idx n hn k hk i a hi, hs.laid.idx m hm k hk i a' hi']

/-- What leads from an anchor to a node in one graph leads from the anchor at its place to the node of that name in the other. -/
theorem peer_corresponding (hs : h.Sound) (hcg : h.ClosedGraph g) (hcr : h.ClosedGraph r)
    (hnames : ∀ name, name ∈ h.nodeNames g ↔ name ∈ h.nodeNames r)
    (hl : h.LinkedAlike g r) (ha : h.owner a ∈ (h.graph g).nodes) (hb : b ∈ h.peers a) :
    ∃ a', ∃ b' ∈ h.peers a', h.owner a' ∈ (h.graph r).nodes ∧ h.owner b' ∈ (h.graph r).nodes ∧
      Node.getName h (h.owner a') = Node.getName h (h.owner a) ∧ h.kind a' = h.kind a ∧ h.anchorIdx a' = h.anchorIdx a ∧
      Node.getName h (h.owner b') = Node.getName h (h.owner b) := by
  obtain ⟨-, hheld⟩ := hs.symm.held hs.peersHeld hb
  obtain ⟨m, hm, hname⟩ := List.mem_map.mp ((hnames _).mp (List.mem_map.mpr ⟨h.owner a, ha, rfl⟩))
  obtain ⟨a', ha', hidx, hpeers⟩ := corresponding hs (hcg.made _ ha) (hcr.made m hm) (hl _ ha m hm hname.symm (h.kind a)) hheld
  have howner := hs.laid.owner m (hcr.made m hm) (h.kind a) a' ha'
  have hmem : Node.getName h (h.owner b) ∈ h.peerNames a' := by
    rw [hpeers]
    exact List.mem_map.mpr ⟨b, hb, rfl⟩
  obtain ⟨b', hb', hbname⟩ := List.mem_map.mp hmem
  have hin : h.owner a' ∈ (h.graph r).nodes := howner.symm ▸ hm
  exact ⟨a', b', hb', hin, hcr.inside a' hin b' hb', howner.symm ▸ hname, hs.laid.kind m (hcr.made m hm) _ a' ha', hidx, hbname⟩

/-- An edge of one graph has an edge of the other that leaves at the same place. -/
theorem leaves_alike (hs : h.Sound) (hcg : h.ClosedGraph g) (hcr : h.ClosedGraph r)
    (hnames : ∀ name, name ∈ h.nodeNames g ↔ name ∈ h.nodeNames r)
    (hl : h.LinkedAlike g r) {e : EdgeName} (he : h.HasEdge g e) :
    ∃ d, h.HasEdge r d ∧ d.source = e.source ∧ d.sourceKind = e.sourceKind ∧ d.sourceIdx = e.sourceIdx ∧ d.dest = e.dest := by
  obtain ⟨a, b, hb, hout, ha, -, rfl⟩ := he
  obtain ⟨a', b', hb', hin, hin', hname, hkind, hidx, hbname⟩ := peer_corresponding hs hcg hcr hnames hl ha hb
  exact ⟨h.edgeName a' b', ⟨a', b', hb', hkind ▸ hout, hin, hin', rfl⟩, hname, hkind, hidx, hbname⟩

/-- An edge of one graph has an edge of the other that arrives at the same place. -/
theorem arrives_alike (hs : h.Sound) (hd : h.Directed) (hcg : h.ClosedGraph g) (hcr : h.ClosedGraph r)
    (hnames : ∀ name, name ∈ h.nodeNames g ↔ name ∈ h.nodeNames r)
    (hl : h.LinkedAlike g r) {e : EdgeName} (he : h.HasEdge g e) :
    ∃ d, h.HasEdge r d ∧ d.dest = e.dest ∧ d.destKind = e.destKind ∧ d.destIdx = e.destIdx ∧ d.source = e.source := by
  obtain ⟨a, b, hb, hout, -, hbin, rfl⟩ := he
  obtain ⟨b', a', ha', hin, hin', hname, hkind, hidx, haname⟩ :=
    peer_corresponding hs hcg hcr hnames hl hbin (hs.symm.mem hb)
  have hout' : (h.kind a').isIn = false := by
    rw [hd b' a' ha', hkind, hd a b hb, hout]
    rfl
  exact ⟨h.edgeName a' b', ⟨a', b', hs.symm.mem ha', hout', hin', hin, rfl⟩, hname, hkind, hidx, haname⟩

theorem onlyEdge_of_alike (hs : h.Sound) (hd : h.Directed) (hcg : h.ClosedGraph g) (hcr : h.ClosedGraph r)
    (hnames : ∀ name, name ∈ h.nodeNames g ↔ name ∈ h.nodeNames r)
    (hl : h.LinkedAlike g r) {e : EdgeName} (he : h.OnlyEdge g e) : h.OnlyEdge r e := by
  obtain ⟨hedge, honly⟩ := he
  -- an edge of the other graph between the two nodes leaves and arrives where the only edge does
  have hsame : ∀ d, h.HasEdge r d → d.source = e.source → d.dest = e.dest → d = e := by
    intro d hdr hsource hdest
    obtain ⟨x, hx, hxs, hxk, hxi, hxd⟩ := leaves_alike hs hcr hcg (fun n => (hnames n).symm) (linkedAlike_symm hl) hdr
    obtain ⟨y, hy, hyd, hyk, hyi, hys⟩ := arrives_alike hs hd hcr hcg (fun n => (hnames n).symm) (linkedAlike_symm hl) hdr
    obtain rfl := honly x hx (hxs.trans hsource) (hxd.trans hdest)
    obtain rfl := honly y hy (hys.trans hsource) (hyd.trans hdest)
    cases d
    cases y
    simp_all
  obtain ⟨d, hdr, hsource, -, -, hdest⟩ := leaves_alike hs hcg hcr hnames hl hedge
  exact ⟨hsame d hdr hsource hdest ▸ hdr, hsame⟩

end EqualWiringAux

open EqualWiringAux

/-- Graphs without subgraphs whose nodes have distinct names are wired alike when they compare equal. -/
theorem equal_graphs_wired_alike (h : Heap) (g r : GraphId) (hs : h.Sound) (hd : h.Directed) (hcg : h.ClosedGraph g)
    (hcr : h.ClosedGraph r) (hsizeg : (h.graph g).directNodesSize = (h.graph g).nodes.length)
    (hsizer : (h.graph r).directNodesSize = (h.graph r).nodes.length) (hng : (h.nodeNames g).Nodup) (hnr : (h.nodeNames r).Nodup)
    (hsub : (h.graph g).subGraph = []) :
    (∃ ok, ComputeGraph.isEqual h 1 g r = some ok) ∧
      ∀ fuel, ComputeGraph.isEqual h fuel g r = some true → h.SameWiring g r := by
  constructor
  · unfold ComputeGraph.isEqual
    split
    · exact ⟨false, rfl⟩
    · split
      · exact ⟨false, rfl⟩
      · rw [hsub]
        exact ⟨true, rfl⟩
  · intro fuel heq
    cases fuel with
    | zero => cases heq
    | succ fuel =>
      unfold ComputeGraph.isEqual at heq
      cases hmembers : ComputeGraph.graphMembersAreEqual h g r with
      | false => simp [hmembers] at heq
      | true =>
        cases hnodes : ComputeGraph.nodesAreEqual h g r with
        | false => simp [hmembers, hnodes] at heq
        | true =>
          have hfound : ∀ n ∈ (h.graph g).nodes, ∃ m ∈ (h.graph r).nodes, Node.getName h m = Node.getName h n ∧
              ∀ k, h.linkedNames m k = h.linkedNames n k := by
            intro n hn
            have hone := all_eq_true.mp hnodes n hn
            cases hf : ComputeGraph.findNode h r (Node.getName h n) with
            | none => simp [hf] at hone
            | some m =>
              have hm := mem_of_find?_eq_some hf
              rw [hf] at hone
              exact ⟨m, hm, linkedNames_of_isEqual hs hd (hcr.made m hm) (hcg.made n hn) hone⟩
          have hsub : h.nodeNames g ⊆ h.nodeNames r := by
            intro name hname
            obtain ⟨n, hn, rfl⟩ := List.mem_map.mp hname
            obtain ⟨m, hm, hmn, -⟩ := hfound n hn
            exact List.mem_map.mpr ⟨m, hm, hmn⟩
          have hsizes : (h.graph g).directNodesSize = (h.graph r).directNodesSize := by
            simp only [ComputeGraph.graphMembersAreEqual, and_eq_true, decide_eq_true_eq] at hmembers
            exact hmembers.1.1.1.1.1.2
          have hperm : (h.nodeNames g).Perm (h.nodeNames r) := by
            refine (hng.subperm hsub).perm_of_length_le ?_
            simp only [Heap.nodeNames, length_map]
            omega
          have hnames : ∀ name, name ∈ h.nodeNames g ↔ name ∈ h.nodeNames r := fun _ => hperm.mem_iff
          have hl : h.LinkedAlike g r := by
            intro n hn m hm hname k
            obtain ⟨x, hx, hxn, hlinked⟩ := hfound n hn
            obtain rfl : x = m := inj_on_of_nodup_map hnr hx hm (hxn.trans hname)
            exact (hlinked k).symm
          exact ⟨hnames, hl, fun e => ⟨onlyEdge_of_alike hs hd hcg hcr hnames hl,
            onlyEdge_of_alike hs hd hcr hcg (fun n => (hnames n).symm) (linkedAlike_symm hl)⟩⟩

namespace EqualWiringWitness

/-- Two nodes that feed two nodes, the first straight, the second crosswise. -/
def crossing : List LinkCall :=
  [.newOp { opDef := { name := "a" }, outputsDesc := [{}, {}] }, .newNode 0,
    .newOp { opDef := { name := "b" }, inputsDesc := [{}, {}] }, .newNode 1,
    .newOp { opDef := { name := "a" }, outputsDesc := [{}, {}] }, .newNode 2,
    .newOp { opDef := { name := "b" }, inputsDesc := [{}, {}] }, .newNode 3,
    .addDataEdge (some 2) (some 6), .addDataEdge (some 3) (some 7),
    .addDataEdge (some 10) (some 15), .addDataEdge (some 11) (some 14)]

/-- The first two nodes make graph 0, the others graph 1. -/
def crossed : Heap := GraphSteps.addAll 1 (GraphSteps.addAll 0 ((LinkCall.runAll crossing).getD .empty) [0, 1]) [2, 3]

/-- Links are between an output and an input, of nodes of one graph. -/
theorem links_crossed : crossed.Sound ∧ ∀ a, ∀ b ∈ crossed.peers a, (crossed.kind b).isIn = !(crossed.kind a).isIn ∧
    (crossed.owner a ∈ (crossed.graph 0).nodes ↔ crossed.owner b ∈ (crossed.graph 0).nodes) ∧
    (crossed.owner a ∈ (crossed.graph 1).nodes ↔ crossed.owner b ∈ (crossed.graph 1).nodes) := by
  have hs : crossed.Sound :=
    GraphSteps.sound_addAll 1 [2, 3] (GraphSteps.sound_addAll 0 [0, 1] (sound_runAll crossing _ (by decide +kernel) rfl))
  have hcount : crossed.anchorCount = 16 := by decide +kernel
  have hall : ∀ a < 16, ∀ b ∈ crossed.peers a, (crossed.kind b).isIn = !(crossed.kind a).isIn ∧
      (crossed.owner a ∈ (crossed.graph 0).nodes ↔ crossed.owner b ∈ (crossed.graph 0).nodes) ∧
      (crossed.owner a ∈ (crossed.graph 1).nodes ↔ crossed.owner b ∈ (crossed.graph 1).nodes) := by decide +kernel
  exact ⟨hs, hs.forall_peers fun a ha => hall a (hcount ▸ ha)⟩

theorem equal_crossed : crossed.ClosedGraph 0 ∧ crossed.ClosedGraph 1 ∧ ComputeGraph.isEqual crossed 1 0 1 = some true :=
  ⟨⟨by decide +kernel, fun a ha b hb => ((links_crossed.2 a b hb).2.1).mp ha⟩,
    ⟨by decide +kernel, fun a ha b hb => ((links_crossed.2 a b hb).2.2).mp ha⟩, by decide +kernel⟩

theorem equal_graphs_wired_alike_crossed : crossed.SameWiring 0 1 :=
  (equal_graphs_wired_alike crossed 0 1 links_crossed.1 (fun a b hb => (links_crossed.2 a b hb).1) equal_crossed.1
    equal_crossed.2.1 (by decide +kernel) (by decide +kernel) (by decide +kernel) (by decide +kernel) (by decide +kernel)).2 1
    equal_crossed.2.2

/-- Graphs wired straight and crosswise compare equal. -/
theorem equal_graphs_same_edges_false :
    ¬ ∀ (h : Heap) (g r : GraphId), h.Sound → h.Directed → h.ClosedGraph g → h.ClosedGraph r →
      (h.graph g).directNodesSize = (h.graph g).nodes.length → (h.graph r).directNodesSize = (h.graph r).nodes.length →
      (h.nodeNames g).Nodup → (h.nodeNames r).Nodup → (h.graph g).subGraph = [] → (h.graph r).subGraph = [] →
      ComputeGraph.isEqual h 1 g r = some true → ∀ e, h.HasEdge g e ↔ h.HasEdge r e := by
  intro hall
  have hiff := hall crossed 0 1 links_crossed.1 (fun a b hb => (links_crossed.2 a b hb).1) equal_crossed.1 equal_crossed.2.1
    (by decide +kernel) (by decide +kernel) (by decide +kernel) (by decide +kernel) (by decide +kernel) (by decide +kernel)
    equal_crossed.2.2 { source := "a", sourceKind := .outData, sourceIdx := 0, dest := "b", destKind := .inData, destIdx := 0 }
  obtain ⟨a, b, hb, -, ha, -, he⟩ := hiff.mp
    ⟨2, 6, by decide +kernel, by decide +kernel, by decide +kernel, by decide +kernel, by decide +kernel⟩
  have hcount : crossed.anchorCount = 16 := by decide +kernel
  have hnone : ∀ a < 16, ∀ b ∈ crossed.peers a, crossed.owner a ∈ (crossed.graph 1).nodes → crossed.edgeName a b ≠
      { source := "a", sourceKind := .outData, sourceIdx := 0, dest := "b", destKind := .inData, destIdx := 0 } := by
    decide +kernel
  exact links_crossed.1.forall_peers (fun a ha => hnone a (hcount ▸ ha)) a b hb ha he

end EqualWiringWitness

end Metadef
