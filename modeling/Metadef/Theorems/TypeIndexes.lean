import Metadef.Theorems.ClosedGraphs
import Metadef.Theorems.LabelledMatches
import Metadef.Lemmas.NewNodes
import Metadef.TypeIndex

/-!
# The index of nodes by their types

A node is entered in the index under its type and its name, and an entry that is there is not replaced. While no entry is left under the
type and the name of a node that is added, the index and the node list give the same matches.
-/

namespace Metadef

open List LabelledMatchesAux OrderedMap FusionMatchesAux Bool

open PatternFusion GraphPassUtil

/-- The type of a node over a descriptor. -/
def opNodeType (originalType : OpId → String) (h : Heap) (o : OpId) : String :=
  if (h.op o).getType ≠ "FrameworkOp" then (h.op o).getType else originalType o

/-- What is entered under a type. -/
def typeEntries (map : NodeTypeMap) (type : String) : OrderedMap String NodeId := (map.find type).getD []

/-- A node is added under its own type, and neither a listed node nor an entry of that type has its name. A listed node is removed where
it leaves no link behind. -/
def IndexCall.Careful (originalType : OpId → String) (s : PassGraph) : IndexCall → Prop
  | add adding opType => ∀ o ∈ adding.opDesc s.heap,
      (∀ type ∈ opType, type = opNodeType originalType s.heap o) ∧
      (∀ n ∈ (s.heap.graph s.graph).nodes, Node.getName s.heap n ≠ (s.heap.op o).getName) ∧
      ∀ info ∈ s.nodeMapInfo,
        (typeEntries info.nodeTypeMap (opNodeType originalType s.heap o)).contains (s.heap.op o).getName = false
  | remove node _ => node ∈ (s.heap.graph s.graph).nodes → s.heap.Removable s.graph node
  | _ => True

instance (originalType : OpId → String) (s : PassGraph) (c : IndexCall) : Decidable (c.Careful originalType s) := by
  cases c <;> simp only [IndexCall.Careful] <;> infer_instance

/-- No type of a listed node is asked for twice, and a pattern whose output has no inputs asks for no node without edges. -/
def PassGraph.Asked (originalType : OpId → String) (s : PassGraph) (p : FusionPattern) (out : PatternOpId) : Prop :=
  ∀ n ∈ (s.heap.graph s.graph).nodes,
    (p.op out).types.count (NodeUtils.getNodeType originalType s.heap n) ≤ 1 ∧
    (NodeUtils.getNodeType originalType s.heap n ∈ (p.op out).types →
      p.getInputs out ≠ [] ∨ ¬(Node.getInDataNodes s.heap n = [] ∧ Node.getOutAllNodes s.heap n = []))

instance (originalType : OpId → String) (s : PassGraph) (p : FusionPattern) (out : PatternOpId) :
    Decidable (s.Asked originalType p out) := by
  unfold PassGraph.Asked
  infer_instance

/-- Whether the search from a candidate succeeds. -/
def PatternFusion.matchesFrom (originalType : OpId → String) (fuel : Nat) (s : PassGraph) (p : FusionPattern) (out : PatternOpId)
    (n : NodeId) : Bool :=
  (matchFromOutput originalType s.heap p fuel (some n) (some out) []).any Prod.fst

namespace TypeIndexAux

open Cmd Heap ClosedAux CallAux ComputeGraph

variable {h h' t : Heap} {g : GraphId} {n : NodeId} {o : OpId} {map : NodeTypeMap} {originalType : OpId → String}

/-! ## Names and types -/

/-- The descriptors of all nodes are made. -/
def Made (h : Heap) : Prop := ∀ n < h.nodeCount, (h.node n).op < h.opCount

/-- No node that was made changes its name or its type. -/
structure Named (h h' : Heap) : Prop where
  opCount : h.opCount ≤ h'.opCount
  nodeCount : h.nodeCount ≤ h'.nodeCount
  node : ∀ n < h.nodeCount, (h'.node n).op = (h.node n).op
  desc : ∀ o < h.opCount, (h'.op o).getName = (h.op o).getName ∧ (h'.op o).getType = (h.op o).getType
  made : Made h → Made h'

theorem Named.trans (ht : Named h t) (ht' : Named t h') : Named h h' where
  opCount := ht.opCount.trans ht'.opCount
  nodeCount := ht.nodeCount.trans ht'.nodeCount
  node n hn := (ht'.node n (Nat.lt_of_lt_of_le hn ht.nodeCount)).trans (ht.node n hn)
  desc o ho := by
    obtain ⟨hname, htype⟩ := ht'.desc o (Nat.lt_of_lt_of_le ho ht.opCount)
    exact ⟨hname.trans (ht.desc o ho).1, htype.trans (ht.desc o ho).2⟩
  made hm := ht'.made (ht.made hm)

/-- What writes neither nodes nor descriptors. -/
theorem Named.of_eq (hops : h'.opCount = h.opCount) (hop : h'.op = h.op) (hnodes : h'.nodeCount = h.nodeCount)
    (hnode : h'.node = h.node) : Named h h' where
  opCount := Nat.le_of_eq hops.symm
  nodeCount := Nat.le_of_eq hnodes.symm
  node n _ := by rw [hnode]
  desc o _ := by rw [hop]; exact ⟨rfl, rfl⟩
  made hm n hn := by
    rw [hnode, hops]
    exact hm n (hnodes ▸ hn)

theorem Named.name (hn : Named h h') (hm : Made h) (hlt : n < h.nodeCount) : Node.getName h' n = Node.getName h n := by
  unfold Node.getName Heap.desc
  rw [hn.node n hlt]
  exact (hn.desc _ (hm n hlt)).1

theorem Named.type (hn : Named h h') (hm : Made h) (hlt : n < h.nodeCount) :
    NodeUtils.getNodeType originalType h' n = NodeUtils.getNodeType originalType h n := by
  have htype : Node.getType h' n = Node.getType h n := by
    unfold Node.getType Heap.desc
    rw [hn.node n hlt]
    exact (hn.desc _ (hm n hlt)).2
  unfold NodeUtils.getNodeType
  rw [htype, hn.node n hlt]

theorem named_setId (h : Heap) (o : OpId) (i : Int) : Named h (h.setOp o ((h.op o).setId i)) where
  opCount := Nat.le_refl _
  nodeCount := Nat.le_refl _
  node _ _ := rfl
  desc p _ := by
    rw [setOp_op]
    split
    · rename_i hp
      exact hp ▸ ⟨rfl, rfl⟩
    · exact ⟨rfl, rfl⟩
  made hm := hm

theorem named_setHost (h : Heap) (n : NodeId) (b : Bool) : Named h (h.setNode n { h.node n with hostNode := b }) := by
  have hnode : ∀ m, ((h.setNode n { h.node n with hostNode := b }).node m).op = (h.node m).op := by
    intro m
    rw [setNode_node]
    split
    · rename_i hm
      exact hm ▸ rfl
    · rfl
  exact ⟨Nat.le_refl _, Nat.le_refl _, fun m _ => hnode m, fun _ _ => ⟨rfl, rfl⟩, fun hm m hlt => hnode m ▸ hm m hlt⟩

theorem named_setGraph (h : Heap) (g : GraphId) (x : ComputeGraph) : Named h (h.setGraph g x) := .of_eq rfl rfl rfl rfl

theorem named_makeOp (h : Heap) (op : OpDesc) : Named h (LinkCall.makeOp op h) where
  opCount := Nat.le_succ _
  nodeCount := Nat.le_refl _
  node _ _ := rfl
  desc o ho := by
    have hop : (LinkCall.makeOp op h).op o = h.op o := by
      simp [LinkCall.makeOp, Nat.ne_of_lt ho]
    rw [hop]
    exact ⟨rfl, rfl⟩
  made hm n hn := Nat.lt_succ_of_lt (hm n hn)

variable {owner : Option GraphId} {r : Option NodeId} {adding : NodeAdding}

theorem named_make (ho : o < h.opCount) (hr : Node.make o owner h = some (n, h')) :
    Named h h' ∧ n = h.nodeCount ∧ (h'.node n).op = o := by
  obtain ⟨t, ht, hops, hcount, -, hop, -, hnode, hnew, -⟩ := NewNodesAux.make_spec o owner h
  obtain ⟨rfl, rfl⟩ : h.nodeCount = n ∧ t = h' := by simpa [ht] using hr
  refine ⟨⟨Nat.le_of_eq hops.symm, hcount ▸ Nat.le_succ _, fun m hm => by rw [hnode m hm], fun p _ => by rw [hop]; exact ⟨rfl, rfl⟩,
    fun hm m hlt => ?_⟩, rfl, hnew⟩
  rw [hops]
  rcases Nat.lt_succ_iff_lt_or_eq.mp (hcount ▸ hlt) with hlt | rfl
  · rw [hnode m hlt]
    exact hm m hlt
  · rw [hnew]
    exact ho

/-! ## Links -/

/-- What makes anchors and no links. -/
structure NoNewLinks (h h' : Heap) : Prop where
  anchorCount : h.anchorCount ≤ h'.anchorCount
  anchor : ∀ a < h.anchorCount, h'.anchor a = h.anchor a
  peers : h'.peers = h.peers

theorem NoNewLinks.of_eq (hcount : h'.anchorCount = h.anchorCount) (hanchor : h'.anchor = h.anchor) : NoNewLinks h h' :=
  ⟨Nat.le_of_eq hcount.symm, fun _ _ => by rw [hanchor], by unfold Heap.peers; rw [hanchor]⟩

theorem NoNewLinks.trans (ht : NoNewLinks h t) (ht' : NoNewLinks t h') : NoNewLinks h h' :=
  ⟨ht.anchorCount.trans ht'.anchorCount,
    fun a ha => (ht'.anchor a (Nat.lt_of_lt_of_le ha ht.anchorCount)).trans (ht.anchor a ha), ht'.peers.trans ht.peers⟩

theorem noNewLinks_make (hs : h.Sound) (hr : Node.make o owner h = some (n, h')) : NoNewLinks h h' := by
  have hgrown := NewNodesAux.anchorsGrown_make hs o owner hr
  exact ⟨hgrown.anchorCount, hgrown.anchor, hgrown.peers⟩

/-- Links of listed nodes only stay such where none is made and more nodes are listed. -/
theorem NoNewLinks.linkless (hl : NoNewLinks h h') (hs : h.Sound) (hnodes : (h.graph g).nodes ⊆ (h'.graph g).nodes)
    (hnone : Linkless h g) : Linkless h' g := by
  intro a ha
  by_contra hne
  obtain ⟨b, hb⟩ := exists_mem_of_ne_nil _ hne
  rw [hl.peers] at hb
  have hmade : a < h.anchorCount := by
    by_contra hlt
    rw [AnchorAux.peers_of_not_made hs (Nat.not_lt.mp hlt)] at hb
    cases hb
  have howner : h'.owner a = h.owner a := by
    unfold Heap.owner
    rw [hl.anchor a hmade]
  rw [howner] at ha
  rw [hnone a fun hin => ha (hnodes hin)] at hb
  cases hb

/-! ## Adding a node -/

/-- A node over a descriptor is added. -/
structure Added (h : Heap) (g : GraphId) (o : OpId) (n : NodeId) (h' : Heap) : Prop where
  kept : Kept h' g
  nodes : (h'.graph g).nodes.Perm (n :: (h.graph g).nodes)
  named : Named h h'
  links : NoNewLinks h h'
  made : n < h'.nodeCount
  op : (h'.node n).op = o

/-- A node that was made is added, whatever the flag of the graph and the place in its list. -/
theorem added_node (hk : Kept h g) (hn : n < h.nodeCount) (adding : NodeAdding)
    (ha : adding = .addNode (some n) ∨ adding = .addNodeFront (some n))
    (hr : adding.run g h = some (r, h')) : r = some n ∧ Added h g (h.node n).op n h' := by
  have hnamed : ∀ (b : Bool) (i : Int) (x : ComputeGraph),
      let u := h.setNode n { h.node n with hostNode := b }
      let v := (u.setOp (u.node n).op ((u.desc n).setId i)).setGraph g x
      Named h v ∧ NoNewLinks h v ∧ (v.node n).op = (h.node n).op := by
    intro b i x u v
    exact ⟨((named_setHost h n b).trans (named_setId u _ i)).trans (named_setGraph _ g x), .of_eq rfl rfl, by simp [u, v]⟩
  rcases ha with rfl | rfl
  · have hlists : Lists h g n h' := addNode_lists hk.inside hn hr
    simp only [NodeAdding.run, addNode, modify_bind_apply, pure_apply, Option.some.injEq, Prod.mk.injEq] at hr
    obtain ⟨rfl, rfl⟩ := hr
    obtain ⟨hname, hlink, hop⟩ := hnamed (h.graph g).isValidFlag (h.graph g).directNodesSize ((h.graph g).pushBackToNodeList n)
    exact ⟨rfl, hlists.kept hk, hlists.nodes, hname, hlink, hn, hop⟩
  · have hlists : Lists h g n h' := addNodeFront_lists hk.inside hn hr
    simp only [NodeAdding.run, addNodeFront, edit, modify_bind_apply, get_bind_apply, pure_apply, Option.some.injEq,
      Prod.mk.injEq] at hr
    obtain ⟨rfl, rfl⟩ := hr
    obtain ⟨hname, hlink, hop⟩ := hnamed (h.graph g).isValidFlag (h.graph g).directNodesSize _
    exact ⟨rfl, hlists.kept hk, hlists.nodes, hname, hlink, hn, hop⟩

/-- A new node over a descriptor is added. -/
theorem added_op (hk : Kept h g) (ho : o < h.opCount)
    (ha : adding = .addOpNode (some o) ∨ (∃ i, adding = .addOpNodeWithId (some o) i) ∨ adding = .addOpNodeFront (some o))
    (hr : adding.run g h = some (r, h')) : ∃ n, r = some n ∧ Added h g o n h' := by
  -- the descriptor is numbered, a node over it is made, and the node is added
  obtain ⟨i, add, hadd, hrun⟩ : ∃ (i : Int) (add : NodeId → Cmd Heap (Option NodeId)),
      (∀ u n r, Kept u g → n < u.nodeCount → add n u = some (r, h') → r = some n ∧ Added u g (u.node n).op n h') ∧
        (Node.make o (some g) >>= add) (h.setOp o ((h.op o).setId i)) = some (r, h') := by
    rcases ha with rfl | ⟨i, rfl⟩ | rfl
    · refine ⟨(h.graph g).directNodesSize, fun n => addNode g (some n), fun u n r hu hn hadd => ?_, ?_⟩
      · exact added_node hu hn _ (.inl rfl) hadd
      · rwa [NodeAdding.run, addOpNode, modify_bind_apply] at hr
    · rw [NodeAdding.run, addOpNodeWithId, modify_bind_apply] at hr
      refine ⟨i, _, fun u n r hu hn hadd => ?_, hr⟩
      simp only [edit, modify_bind_apply, pure_apply, Option.some.injEq, Prod.mk.injEq] at hadd
      obtain ⟨rfl, rfl⟩ := hadd
      have hlists : Lists u g n ((u.setNode n { u.node n with hostNode := (u.graph g).isValidFlag }).setGraph g
          ((u.graph g).pushBackToNodeList n)) := by
        refine lists_insert ((hu.inside.setHost n _).setGraph _) hn (Nat.le_refl _) ?_
        rw [setGraph_graph, if_pos rfl]
        exact pushBack_eq_insert (u.graph g) n
      exact ⟨rfl, hlists.kept hu, hlists.nodes, (named_setHost u n _).trans (named_setGraph _ g _), .of_eq rfl rfl, hn, by simp⟩
    · refine ⟨(h.graph g).directNodesSize, fun n => addNodeFront g (some n), fun u n r hu hn hadd => ?_, ?_⟩
      · exact added_node hu hn _ (.inr rfl) hadd
      · rwa [NodeAdding.run, addOpNodeFront, modify_bind_apply] at hr
  obtain ⟨n, t, ht, hrest⟩ := bind_eq_some.mp hrun
  have hstart : Kept (h.setOp o ((h.op o).setId i)) g := hk.of_graph (hk.inside.setOp o _) rfl
  obtain ⟨hin, hgraph, hn⟩ := make_spec hstart.inside ht
  have hmade : o < (h.setOp o ((h.op o).setId i)).opCount := ho
  obtain ⟨hnamed, -, hop⟩ := named_make hmade ht
  obtain ⟨rfl, hadded⟩ := hadd t n r (hstart.of_graph hin (congrFun hgraph g)) hn hrest
  refine ⟨n, rfl, hadded.kept, ?_, ((named_setId h o i).trans hnamed).trans hadded.named, ?_, hadded.made, hadded.op.trans hop⟩
  · have hnodes := hadded.nodes
    rwa [congrFun hgraph g] at hnodes
  · have hset : NoNewLinks h (h.setOp o ((h.op o).setId i)) := .of_eq rfl rfl
    exact (hset.trans (noNewLinks_make hstart.inside.sound ht)).trans hadded.links

/-- A node is added over the descriptor of the call, or nothing is done. -/
theorem added_run (hk : Kept h g) (ht : adding.wellTyped h = true) (hr : adding.run g h = some (r, h')) :
    (adding.opDesc h = none ∧ r = none ∧ h' = h) ∨ ∃ o n, adding.opDesc h = some o ∧ r = some n ∧ Added h g o n h' := by
  cases adding with
  | addNode node =>
    rcases node with _ | n
    · obtain ⟨rfl, rfl⟩ := of_return hr
      exact .inl ⟨rfl, rfl, rfl⟩
    · obtain ⟨rfl, hadded⟩ := added_node hk (of_isNode ht n rfl) _ (.inl rfl) hr
      exact .inr ⟨_, n, rfl, rfl, hadded⟩
  | addNodeFront node =>
    rcases node with _ | n
    · obtain ⟨rfl, rfl⟩ := of_return hr
      exact .inl ⟨rfl, rfl, rfl⟩
    · obtain ⟨rfl, hadded⟩ := added_node hk (of_isNode ht n rfl) _ (.inr rfl) hr
      exact .inr ⟨_, n, rfl, rfl, hadded⟩
  | addOpNode op =>
    rcases op with _ | o
    · obtain ⟨rfl, rfl⟩ := of_return hr
      exact .inl ⟨rfl, rfl, rfl⟩
    · obtain ⟨n, rfl, hadded⟩ := added_op hk (of_decide_eq_true ht) (.inl rfl) hr
      exact .inr ⟨o, n, rfl, rfl, hadded⟩
  | addOpNodeWithId op id =>
    rcases op with _ | o
    · obtain ⟨rfl, rfl⟩ := of_return hr
      exact .inl ⟨rfl, rfl, rfl⟩
    · obtain ⟨n, rfl, hadded⟩ := added_op hk (of_decide_eq_true ht) (.inr (.inl ⟨id, rfl⟩)) hr
      exact .inr ⟨o, n, rfl, rfl, hadded⟩
  | addOpNodeFront op =>
    rcases op with _ | o
    · obtain ⟨rfl, rfl⟩ := of_return hr
      exact .inl ⟨rfl, rfl, rfl⟩
    · obtain ⟨n, rfl, hadded⟩ := added_op hk (of_decide_eq_true ht) (.inr (.inr rfl)) hr
      exact .inr ⟨o, n, rfl, rfl, hadded⟩

/-! ## Entries -/

theorem typeEntries_add (map : NodeTypeMap) (type type' : String) (n : NodeId) :
    typeEntries (addNodeToNodeTypeMap h map type (some n)) type' =
      if type' = type then (typeEntries map type).insert (Node.getName h n) n else typeEntries map type' := by
  unfold typeEntries addNodeToNodeTypeMap
  cases hfind : map.find type with
  | none =>
    rw [find_insert, OrderedMap.find_eq_none.mp hfind]
    by_cases he : type' = type
    · rw [if_pos ⟨he, rfl⟩, if_pos he]
      rfl
    · rw [if_neg fun h => he h.1, if_neg he]
  | some nodes =>
    rw [find_assign]
    by_cases he : type' = type
    · rw [if_pos he, if_pos he]
      rfl
    · rw [if_neg he, if_neg he]

theorem typeEntries_remove (map : NodeTypeMap) (type type' : String) (n : NodeId) :
    typeEntries (removeNodeFromNodeTypeMap h map type (some n)) type' =
      if type' = type then (typeEntries map type).erase (Node.getName h n) else typeEntries map type' := by
  unfold typeEntries removeNodeFromNodeTypeMap
  cases hfind : map.find type with
  | none =>
    by_cases he : type' = type
    · rw [if_pos he, he, hfind]
      rfl
    · rw [if_neg he]
  | some nodes =>
    rw [find_assign]
    by_cases he : type' = type
    · rw [if_pos he, if_pos he]
      rfl
    · rw [if_neg he, if_neg he]

/-- The index has every listed node under its type and its name, and whatever it has stands under its name; what is not listed has no
links. -/
structure InStep (originalType : OpId → String) (h : Heap) (g : GraphId) (map : NodeTypeMap) : Prop where
  kept : Kept h g
  linkless : Linkless h g
  made : Made h
  names : ((h.graph g).nodes.map (Node.getName h)).Nodup
  keys : ∀ type, ((typeEntries map type).map Prod.fst).Nodup
  entered : ∀ type, ∀ e ∈ typeEntries map type, e.2 < h.nodeCount ∧ e.1 = Node.getName h e.2
  listed : ∀ n ∈ (h.graph g).nodes, (Node.getName h n, n) ∈ typeEntries map (NodeUtils.getNodeType originalType h n)

theorem InStep.nodup (hi : InStep originalType h g map) : (h.graph g).nodes.Nodup := hi.names.of_map

/-- Nodes may leave the list. -/
theorem InStep.fewer (hi : InStep originalType h g map) (hk : Kept h' g) (hl : Linkless h' g) (hn : Named h h')
    (hnodes : (h'.graph g).nodes.Sublist (h.graph g).nodes) : InStep originalType h' g map where
  kept := hk
  linkless := hl
  made := hn.made hi.made
  names := by
    have hname : (h'.graph g).nodes.map (Node.getName h') = (h'.graph g).nodes.map (Node.getName h) :=
      map_congr_left fun n hmem => hn.name hi.made (hi.kept.inside.made n (hnodes.subset hmem))
    rw [hname]
    exact (hnodes.map _).nodup hi.names
  keys := hi.keys
  entered type e he := by
    obtain ⟨hlt, hname⟩ := hi.entered type e he
    exact ⟨Nat.lt_of_lt_of_le hlt hn.nodeCount, hname.trans (hn.name hi.made hlt).symm⟩
  listed n hmem := by
    have hold := hnodes.subset hmem
    have hlt := hi.kept.inside.made n hold
    rw [hn.name hi.made hlt, hn.type hi.made hlt]
    exact hi.listed n hold

/-- A node may be listed and entered whose name no node of the list and no entry of its type has. -/
theorem InStep.add (hi : InStep originalType h g map) (ha : Added h g o n h') (ho : o < h.opCount)
    (hnames : ∀ m ∈ (h.graph g).nodes, Node.getName h m ≠ (h.op o).getName)
    (hfree : (typeEntries map (opNodeType originalType h o)).contains (h.op o).getName = false) :
    InStep originalType h' g (addNodeToNodeTypeMap h' map (opNodeType originalType h o) (some n)) := by
  have hname : Node.getName h' n = (h.op o).getName := by
    unfold Node.getName Heap.desc
    rw [ha.op]
    exact (ha.named.desc o ho).1
  have htype : NodeUtils.getNodeType originalType h' n = opNodeType originalType h o := by
    unfold NodeUtils.getNodeType opNodeType Node.getType Heap.desc
    rw [ha.op, (ha.named.desc o ho).2]
  have hnew : (typeEntries map (opNodeType originalType h o)).insert (h.op o).getName n =
      OrderedMap.place (h.op o).getName n (typeEntries map (opNodeType originalType h o)) := by
    simp [OrderedMap.insert, hfree]
  have hold : ∀ m ∈ (h.graph g).nodes, m < h.nodeCount := hi.kept.inside.made
  have hentries := fun type => typeEntries_add (h := h') map (opNodeType originalType h o) type n
  simp only [hname, hnew] at hentries
  refine ⟨ha.kept, ?_, ha.named.made hi.made, ?_, fun type => ?_, fun type e he => ?_, fun m hm => ?_⟩
  · exact ha.links.linkless hi.kept.inside.sound (fun m hm => ha.nodes.mem_iff.mpr (mem_cons_of_mem n hm)) hi.linkless
  · rw [(ha.nodes.map _).nodup_iff, map_cons, hname,
      map_congr_left fun m hm => ha.named.name hi.made (hold m hm)]
    refine nodup_cons.mpr ⟨fun hmem => ?_, hi.names⟩
    obtain ⟨m, hm, he⟩ := List.mem_map.mp hmem
    exact hnames m hm he
  · rw [hentries]
    split
    · rw [((place_perm _ _ _).map Prod.fst).nodup_iff]
      exact nodup_cons.mpr ⟨OrderedMap.not_contains_iff.mp hfree, hi.keys _⟩
    · exact hi.keys type
  · have hmem : e = ((h.op o).getName, n) ∨ e ∈ typeEntries map type := by
      rw [hentries] at he
      split at he
      · rename_i htype
        exact htype ▸ OrderedMap.mem_place.mp he
      · exact .inr he
    rcases hmem with rfl | he
    · exact ⟨ha.made, hname.symm⟩
    · obtain ⟨hlt, hn⟩ := hi.entered type e he
      exact ⟨Nat.lt_of_lt_of_le hlt ha.named.nodeCount, hn.trans (ha.named.name hi.made hlt).symm⟩
  · rcases mem_cons.mp (ha.nodes.mem_iff.mp hm) with rfl | hm
    · rw [hname, htype, hentries, if_pos rfl]
      exact OrderedMap.mem_place.mpr (.inl rfl)
    · have hm' := hi.listed m hm
      rw [ha.named.name hi.made (hold m hm), ha.named.type hi.made (hold m hm), hentries]
      split
      · rename_i htype
        exact OrderedMap.mem_place.mpr (.inr (htype ▸ hm'))
      · exact hm'

/-- An entry of a name that no listed node has may go. -/
theorem InStep.erase (hi : InStep originalType h g map) (hnames : ∀ m ∈ (h.graph g).nodes, Node.getName h m ≠ Node.getName h n)
    (type : String) : InStep originalType h g (removeNodeFromNodeTypeMap h map type (some n)) := by
  have hsub : ∀ type', (typeEntries (removeNodeFromNodeTypeMap h map type (some n)) type').Sublist (typeEntries map type') := by
    intro type'
    rw [typeEntries_remove]
    split
    · rename_i he
      exact he ▸ filter_sublist
    · exact List.Sublist.refl _
  refine ⟨hi.kept, hi.linkless, hi.made, hi.names, fun type' => ((hsub type').map _).nodup (hi.keys type'),
    fun type' e he => hi.entered type' e ((hsub type').subset he), fun m hm => ?_⟩
  have hm' := hi.listed m hm
  rw [typeEntries_remove]
  split
  · rename_i he
    exact mem_filter.mpr ⟨he ▸ hm', by simpa using hnames m hm⟩
  · exact hm'

/-! ## Calls -/

/-- The calls that add and remove no node. -/
theorem unlisted_spec (hk : Kept h g) (hl : Linkless h g) {c : GraphCall}
    (hc : (∃ op, c = .newOp op) ∨ (∃ op, c = .newNode op) ∨ ∃ call, c = .edge call) (hstep : GraphCall.step g h c = some h') :
    Kept h' g ∧ Linkless h' g ∧ Named h h' ∧ h'.graph g = h.graph g := by
  have hs := hk.inside.sound
  simp only [GraphCall.step] at hstep
  split at hstep
  case isFalse => cases hstep
  case isTrue ht =>
  obtain ⟨⟨u, t⟩, hr, rfl⟩ := Option.map_eq_some_iff.mp hstep
  have hkept : Kept t g := by
    refine kept_run hk ht ?_ hr
    rcases hc with ⟨_, rfl⟩ | ⟨_, rfl⟩ | ⟨_, rfl⟩ <;> exact trivial
  refine ⟨hkept, ?_⟩
  rcases hc with ⟨op, rfl⟩ | ⟨op, rfl⟩ | ⟨call, rfl⟩
  · obtain ⟨-, rfl⟩ := of_return hr
    have hlinks : NoNewLinks h (LinkCall.makeOp op h) := .of_eq rfl rfl
    exact ⟨hlinks.linkless hs (List.Subset.refl _) hl, named_makeOp h op, rfl⟩
  · obtain ⟨n, t', hmake, hrest⟩ := bind_eq_some.mp hr
    obtain ⟨-, rfl⟩ := of_return hrest
    obtain ⟨hnamed, -⟩ := named_make (of_decide_eq_true ht) hmake
    have hgraph : t'.graph g = h.graph g := congrFun (make_spec hk.inside hmake).2.1 g
    refine ⟨(noNewLinks_make hs hmake).linkless hs ?_ hl, hnamed, hgraph⟩
    rw [hgraph]
    exact List.Subset.refl _
  · obtain ⟨ok, t', hrun, hrest⟩ := bind_eq_some.mp hr
    obtain ⟨-, rfl⟩ := of_return hrest
    simp only [GraphCall.wellTyped, and_eq_true] at ht
    obtain ⟨_, -, hw⟩ := within_edge hk ht.1 ht.2 hrun 0
    have hgraph : t'.graph g = h.graph g := congrFun hw.frame.2 g
    refine ⟨fun a ha => ?_, .of_eq hw.opCount hw.frame.1 hw.layout.nodeCount hw.layout.node, hgraph⟩
    rw [hw.layout.owner, hgraph] at ha
    -- the anchor is of no node the call stays beside
    obtain ⟨n, hn, hw'⟩ := within_edge hk ht.1 ht.2 hrun (h.owner a + 1)
    have hne : h.owner a ≠ n := by
      rintro rfl
      rcases hn with hn | hn
      · exact Nat.succ_ne_self _ hn.symm
      · exact ha hn
    exact sublist_nil.mp (hl a ha ▸ hw'.outside a hne ha)

/-- A descriptor a node is added over was made. -/
theorem opDesc_lt (hm : Made h) (ht : adding.wellTyped h = true) (ho : o ∈ adding.opDesc h) : o < h.opCount := by
  have hnode : ∀ node : Option NodeId, LinkCall.isNode h node = true → o ∈ node.map (fun n => (h.node n).op) → o < h.opCount := by
    intro node hnode ho
    obtain ⟨n, rfl, rfl⟩ := Option.map_eq_some_iff.mp ho
    exact hm n (of_isNode hnode n rfl)
  have hop : ∀ op : Option OpId, GraphCall.isOp h op = true → o ∈ op → o < h.opCount := by
    rintro _ hop rfl
    exact of_decide_eq_true hop
  cases adding with
  | addNode node => exact hnode node ht ho
  | addNodeFront node => exact hnode node ht ho
  | addOpNode op => exact hop op ht ho
  | addOpNodeWithId op _ => exact hop op ht ho
  | addOpNodeFront op => exact hop op ht ho

/-- The index of a graph is there and in step with its nodes. -/
def Tracks (originalType : OpId → String) (s : PassGraph) : Prop :=
  ∃ info, s.nodeMapInfo = some info ∧ InStep originalType s.heap s.graph info.nodeTypeMap

/-- A careful call keeps the index in step. -/
theorem tracks_step {s s' : PassGraph} {c : IndexCall} (hs : Tracks originalType s) (hc : c.Careful originalType s)
    (hstep : c.step originalType s = some s') : Tracks originalType s' := by
  obtain ⟨info, hinfo, hi⟩ := hs
  have hplain : ∀ {call : GraphCall}, ((∃ op, call = .newOp op) ∨ (∃ op, call = .newNode op) ∨ ∃ edge, call = .edge edge) →
      (GraphCall.step s.graph s.heap call).map (fun h => { s with heap := h }) = some s' → Tracks originalType s' := by
    intro call hcall hstep
    obtain ⟨h', hh, rfl⟩ := Option.map_eq_some_iff.mp hstep
    obtain ⟨hk, hl, hn, hg⟩ := unlisted_spec hi.kept hi.linkless hcall hh
    exact ⟨info, hinfo, hi.fewer hk hl hn (hg ▸ List.Sublist.refl _)⟩
  cases c with
  | newOp op => exact hplain (.inl ⟨op, rfl⟩) hstep
  | newNode op => exact hplain (.inr (.inl ⟨op, rfl⟩)) hstep
  | edge call => exact hplain (.inr (.inr ⟨call, rfl⟩)) hstep
  | add adding opType =>
    rw [IndexCall.step] at hstep
    split at hstep
    case isFalse => cases hstep
    case isTrue ht =>
    obtain ⟨⟨r, h'⟩, hr, rfl⟩ := Option.map_eq_some_iff.mp hstep
    rcases added_run hi.kept ht hr with ⟨-, rfl, rfl⟩ | ⟨o, n, hop, rfl, hadded⟩
    · -- a null pointer is neither added nor entered
      refine ⟨info, ?_, hi⟩
      simp only [PassGraph.editIndex, hinfo, Option.map_some]
      cases opType <;> rfl
    · obtain ⟨htype, hnames, hfree⟩ := hc o hop
      have ho : o < s.heap.opCount := opDesc_lt hi.made ht hop
      have hown : NodeUtils.getNodeType originalType h' n = opNodeType originalType s.heap o := by
        unfold NodeUtils.getNodeType opNodeType Node.getType Heap.desc
        rw [hadded.op, (hadded.named.desc o ho).2]
      refine ⟨_, congrArg (Option.map _) hinfo, ?_⟩
      rcases opType with _ | type
      · show InStep originalType h' s.graph (addNodeFromOpTypeMap h' info.nodeTypeMap (some n) originalType)
        rw [addNodeFromOpTypeMap, hown]
        exact hi.add hadded ho hnames (hfree info hinfo)
      · obtain rfl := htype type rfl
        exact hi.add hadded ho hnames (hfree info hinfo)
  | remove node opType =>
    rw [IndexCall.step] at hstep
    split at hstep
    case isFalse => cases hstep
    case isTrue ht =>
    obtain ⟨⟨ok, h'⟩, hr, rfl⟩ := Option.map_eq_some_iff.mp hstep
    have hshrunk : Shrunk s.heap s.graph node ok h' := by
      by_cases hmem : node ∈ (s.heap.graph s.graph).nodes
      · exact removeNode_listed_spec hi.kept hmem (hc hmem) hr
      · exact removeNode_absent_spec hi.kept (of_isNode ht node rfl) hmem hr
    have hnamed : Named s.heap h' := .of_eq hshrunk.opCount hshrunk.op hshrunk.layout.nodeCount hshrunk.layout.node
    have hfewer : InStep originalType h' s.graph info.nodeTypeMap :=
      hi.fewer hshrunk.kept (hshrunk.linkless hi.linkless) hnamed hshrunk.nodes
    refine ⟨_, congrArg (Option.map _) hinfo, ?_⟩
    rcases opType with _ | type
    · exact hfewer
    · cases ok with
      | false => exact hfewer
      | true =>
        refine hfewer.erase (fun m hm hname => ?_) type
        have hold := hshrunk.nodes.subset hm
        have hlisted := hshrunk.listed rfl
        rw [hnamed.name hi.made (hi.kept.inside.made m hold), hnamed.name hi.made (hi.kept.inside.made node hlisted)] at hname
        obtain rfl := inj_on_of_nodup_map hi.names hold hlisted hname
        exact hshrunk.removed rfl hi.nodup hm

theorem tracks_indexed (g : GraphId) : Tracks originalType (PassGraph.indexed g) := by
  refine ⟨{}, rfl, kept_empty, fun _ _ => rfl, fun n hn => absurd hn (Nat.not_lt_zero n), nodup_nil, fun _ => nodup_nil,
    fun _ => nofun, fun _ hn => absurd hn not_mem_nil⟩

/-! ## Candidates -/

/-- A node without edges. -/
def Isolated (h : Heap) (n : NodeId) : Prop := Node.getInDataNodes h n = [] ∧ Node.getOutAllNodes h n = []

theorem isolated_of_peers (hs : h.Sound) (hn : n < h.nodeCount) (hnone : ∀ a, h.owner a = n → h.peers a = []) : Isolated h n := by
  have hpeers : ∀ k, ∀ a ∈ h.anchorsOf n k, h.peers a = [] := fun k a ha => hnone a (hs.laid.owner n hn k a ha)
  have hin : (h.node n).inDataAnchors.filterMap (InDataAnchor.getPeerOutAnchor h) = [] := by
    refine filterMap_eq_nil_iff.mpr fun a ha => ?_
    rw [InDataAnchor.getPeerOutAnchor, hpeers .inData a ha]
  have hout : ((h.node n).outDataAnchors.flatMap fun a =>
      OutDataAnchor.getPeerInDataAnchors h a ++ OutDataAnchor.getPeerInControlAnchors h a) = [] := by
    refine flatMap_eq_nil_iff.mpr fun a ha => ?_
    simp [OutDataAnchor.getPeerInDataAnchors, OutDataAnchor.getPeerInControlAnchors, Anchor.getPeersOf, hpeers .outData a ha]
  have hcontrol : h.peers (h.node n).outControlAnchor = [] := hpeers .outControl _ mem_cons_self
  constructor
  · rw [Node.getInDataNodes, hin]
    rfl
  · rw [Node.getOutAllNodes, hout, hcontrol]
    rfl

section

variable {s : PassGraph} {info : NodeMapInfo} {types : List String}

/-- The candidates of the index are the listed nodes of the types that have edges. -/
theorem mem_indexed (hinfo : s.nodeMapInfo = some info) (hi : InStep originalType s.heap s.graph info.nodeTypeMap) :
    n ∈ matchOutputNodes originalType s types ↔ n ∈ (s.heap.graph s.graph).nodes ∧
      NodeUtils.getNodeType originalType s.heap n ∈ types ∧ ¬Isolated s.heap n := by
  simp only [matchOutputNodes, hinfo, mem_flatMap, mem_filter, List.mem_map, and_eq_true, not_eq_true',
    and_eq_false_iff, isEmpty_eq_false_iff, decide_eq_true_eq, Isolated, Classical.not_and_iff_not_or_not]
  constructor
  · rintro ⟨type, htype, ⟨e, he, rfl⟩, hedges, rfl⟩
    refine ⟨?_, htype, hedges⟩
    -- what is not listed has no edges
    by_contra hout
    have hiso : Isolated s.heap e.2 := isolated_of_peers hi.kept.inside.sound (hi.entered _ e he).1
      fun a ha => hi.linkless a (ha ▸ hout)
    exact hedges.elim (fun h => h hiso.1) fun h => h hiso.2
  · rintro ⟨hn, htype, hedges⟩
    exact ⟨_, htype, ⟨_, hi.listed n hn, rfl⟩, hedges, rfl⟩

theorem mem_scanned : n ∈ matchOutputNodes originalType s.withoutIndex types ↔
    n ∈ (s.heap.graph s.graph).nodes ∧ NodeUtils.getNodeType originalType s.heap n ∈ types := by
  simp [matchOutputNodes, PassGraph.withoutIndex, isOpTypeExist]

/-- Each is a candidate once if its type is asked for once. -/
theorem nodup_indexed (hinfo : s.nodeMapInfo = some info) (hi : InStep originalType s.heap s.graph info.nodeTypeMap)
    (htypes : ∀ n ∈ (s.heap.graph s.graph).nodes, types.count (NodeUtils.getNodeType originalType s.heap n) ≤ 1) :
    (matchOutputNodes originalType s types).Nodup := by
  induction types with
  | nil => simp [matchOutputNodes, hinfo]
  | cons type types ih =>
    have hrest := ih fun n hn => (count_le_count_cons).trans (htypes n hn)
    have hcons : matchOutputNodes originalType s (type :: types) =
        matchOutputNodes originalType s [type] ++ matchOutputNodes originalType s types := by
      simp [matchOutputNodes, hinfo]
    rw [hcons]
    refine List.Nodup.append ?_ hrest ?_
    · -- the entries of one type have names of their own, and so nodes of their own
      have hkeys : (typeEntries info.nodeTypeMap type).map (Node.getName s.heap ∘ Prod.snd) =
          (typeEntries info.nodeTypeMap type).map Prod.fst :=
        map_congr_left fun e he => (hi.entered type e he).2.symm
      have hnodup : (getNodesFromNodeTypeMap info.nodeTypeMap type).Nodup := by
        refine List.Nodup.of_map (Node.getName s.heap) ?_
        rw [getNodesFromNodeTypeMap, map_map]
        exact hkeys.symm ▸ hi.keys type
      have hone : matchOutputNodes originalType s [type] = (getNodesFromNodeTypeMap info.nodeTypeMap type).filter fun n =>
          !((Node.getInDataNodes s.heap n).isEmpty && (Node.getOutAllNodes s.heap n).isEmpty) &&
            NodeUtils.getNodeType originalType s.heap n = type := by
        simp only [matchOutputNodes, hinfo, flatMap_cons, flatMap_nil, append_nil]
        rfl
      exact hone ▸ hnodup.filter _
    · intro n hn hn'
      obtain ⟨hlisted, htype, -⟩ := (mem_indexed hinfo hi).mp hn
      obtain ⟨-, htype', -⟩ := (mem_indexed hinfo hi).mp hn'
      have hle := htypes n hlisted
      rw [mem_singleton.mp htype] at hle htype'
      rw [count_cons_self] at hle
      have hpos := count_pos_iff.mpr htype'
      omega

variable {p : FusionPattern} {out : PatternOpId} {fuel : Nat}

/-- A node without sources is no output of a pattern with inputs. -/
theorem not_matchesFrom (hinputs : p.getInputs out ≠ []) (hn : Node.getInDataNodes s.heap n = []) :
    matchesFrom originalType fuel s p out n = false := by
  cases fuel with
  | zero => rfl
  | succ fuel =>
    have hmatch : matchFromOutput originalType s.heap p (fuel + 1) (some n) (some out) [] =
        some (false, pushNode [] out n) := by
      simp [matchFromOutput, matchLoop, matchInputs, hinputs, hn]
    rw [matchesFrom, hmatch]
    rfl

/-- The candidates from which the search succeeds are the same. -/
theorem perm_candidates (hinfo : s.nodeMapInfo = some info) (hi : InStep originalType s.heap s.graph info.nodeTypeMap)
    (hask : s.Asked originalType p out) :
    ((matchOutputNodes originalType s (p.op out).types).filter (matchesFrom originalType fuel s p out)).Nodup ∧
      ((matchOutputNodes originalType s (p.op out).types).filter (matchesFrom originalType fuel s p out)).Perm
        ((matchOutputNodes originalType s.withoutIndex (p.op out).types).filter (matchesFrom originalType fuel s p out)) := by
  have hindexed := (nodup_indexed hinfo hi fun n hn => (hask n hn).1).filter (matchesFrom originalType fuel s p out)
  have hscanned : (matchOutputNodes originalType s.withoutIndex (p.op out).types).Nodup := hi.nodup.filter _
  refine ⟨hindexed, (perm_ext_iff_of_nodup hindexed (hscanned.filter _)).mpr fun n => ?_⟩
  rw [mem_filter, mem_filter, mem_indexed hinfo hi, mem_scanned]
  constructor
  · rintro ⟨⟨hn, htype, -⟩, hok⟩
    exact ⟨⟨hn, htype⟩, hok⟩
  · rintro ⟨⟨hn, htype⟩, hok⟩
    refine ⟨⟨hn, htype, fun hiso => ?_⟩, hok⟩
    rcases (hask n hn).2 htype with hinputs | hedges
    · rw [not_matchesFrom hinputs hiso.1] at hok
      cases hok
    · exact hedges hiso

/-- The matches are the same, in whatever order. -/
theorem perm_found (hinfo : s.nodeMapInfo = some info) (hi : InStep originalType s.heap s.graph info.nodeTypeMap)
    (hask : s.Asked originalType p out) :
    (foundMatches originalType fuel s p out).Perm (foundMatches originalType fuel s.withoutIndex p out) := by
  have hfilter : ∀ s' : PassGraph, s'.heap = s.heap → foundMatches originalType fuel s' p out =
      ((matchOutputNodes originalType s' (p.op out).types).filter (matchesFrom originalType fuel s p out)).filterMap
        (LabelledMatchesAux.found fun n => matchFromOutput originalType s.heap p fuel (some n) (some out) []) := by
    intro s' hs'
    rw [filterMap_filter, foundMatches, hs']
    refine filterMap_congr fun n _ => ?_
    unfold matchesFrom LabelledMatchesAux.found
    rcases hr : matchFromOutput originalType s.heap p fuel (some n) (some out) [] with _ | ⟨_ | _, m⟩ <;> simp [hr]
  rw [hfilter s rfl, hfilter s.withoutIndex rfl]
  exact (perm_candidates hinfo hi hask).2.filterMap _

/-- Both functions come to the same end, with the same matches. -/
theorem matchAllWith_indexed (accept : Mapping → Bool) (hout : p.getOutput = some out)
    (hperm : (foundMatches originalType fuel s p out).Perm (foundMatches originalType fuel s.withoutIndex p out))
    (hends : ∀ s', s' = s ∨ s' = s.withoutIndex → ∀ n ∈ matchOutputNodes originalType s' (p.op out).types,
      (matchFromOutput originalType s'.heap p fuel (some n) (some out) []).isSome) :
    ∃ ok indexed scanned, matchAllWith originalType accept fuel s p = some (ok, indexed) ∧
      matchAllWith originalType accept fuel s.withoutIndex p = some (ok, scanned) ∧ (ok = true → indexed.Perm scanned) := by
  rw [matchAllWith_eq accept hout (hends s (.inl rfl)),
    matchAllWith_eq accept hout (hends s.withoutIndex (.inr rfl)), hperm.all_eq]
  split
  · refine ⟨_, _, _, rfl, ?_, fun _ => hperm⟩
    have hempty : (foundMatches originalType fuel s p out).isEmpty =
        (foundMatches originalType fuel s.withoutIndex p out).isEmpty := by
      rw [Bool.eq_iff_iff, List.isEmpty_iff, List.isEmpty_iff, ← length_eq_zero_iff, hperm.length_eq, length_eq_zero_iff]
    rw [hempty]
  · exact ⟨false, _, _, rfl, rfl, nofun⟩

end

end TypeIndexAux

open TypeIndexAux

/-! ## Index and scan -/

/-- In every run of careful calls, the index and the node list have the same candidates from which a pattern matches, each once, and both
base classes collect the same matches with and without the index. -/
theorem matchAll_indexed (originalType : OpId → String) (streamLabel : OpId → Option String) (byPointer : Mapping → Mapping)
    (g : GraphId) (calls : List IndexCall) (s : PassGraph)
    (hcareful : Run.Each (IndexCall.step originalType) (IndexCall.Careful originalType) calls (.indexed g))
    (hrun : Run.exec (IndexCall.step originalType) calls (.indexed g) = some s)
    (patternCalls : List PatternCall) (p : FusionPattern) (hb : (PatternCall.runAll patternCalls).build = (p, true)) :
    ∃ out, p.getOutput = some out ∧ (s.Asked originalType p out → ∃ bound, ∀ fuel, bound < fuel →
      ((matchOutputNodes originalType s (p.op out).types).filter (matchesFrom originalType fuel s p out)).Nodup ∧
      ((matchOutputNodes originalType s (p.op out).types).filter (matchesFrom originalType fuel s p out)).Perm
        ((matchOutputNodes originalType s.withoutIndex (p.op out).types).filter (matchesFrom originalType fuel s p out)) ∧
      ∀ base : PassBase, ∃ ok indexed scanned,
        base.matchAll originalType streamLabel byPointer fuel s p = some (ok, indexed) ∧
        base.matchAll originalType streamLabel byPointer fuel s.withoutIndex p = some (ok, scanned) ∧
        (ok = true → indexed.Perm scanned)) := by
  have htracks : Tracks originalType s :=
    Run.invariant (fun _ _ _ hs hc hstep => tracks_step hs hc hstep) calls _ s (tracks_indexed g) hcareful hrun
  obtain ⟨info, hinfo, hi⟩ := htracks
  obtain ⟨out, hbuilt⟩ := built_of_build (formed_runAll patternCalls) hb
  refine ⟨out, hbuilt.output, fun hask => ?_⟩
  have hmade : ∀ n ∈ matchOutputNodes originalType s (p.op out).types ++
      matchOutputNodes originalType s.withoutIndex (p.op out).types, n < s.heap.nodeCount := by
    intro n hn
    rcases mem_append.mp hn with hn | hn
    · exact hi.kept.inside.made n ((mem_indexed hinfo hi).mp hn).1
    · exact hi.kept.inside.made n (mem_scanned.mp hn).1
  obtain ⟨bound, hends⟩ := searches_end originalType hi.kept.inside.sound hbuilt _ hmade
  refine ⟨bound, fun fuel hfuel => ?_⟩
  have hends' : ∀ s', s' = s ∨ s' = s.withoutIndex → ∀ n ∈ matchOutputNodes originalType s' (p.op out).types,
      (matchFromOutput originalType s'.heap p fuel (some n) (some out) []).isSome := by
    rintro s' (rfl | rfl) n hn
    · exact hends fuel hfuel n (mem_append_left _ hn)
    · exact hends fuel hfuel n (mem_append_right _ hn)
  refine ⟨(perm_candidates hinfo hi hask).1, (perm_candidates hinfo hi hask).2, fun base => ?_⟩
  cases base with
  | patternFusion => exact matchAllWith_indexed _ hbuilt.output (perm_found hinfo hi hask) hends'
  | graphFusion => exact matchAllWith_indexed _ hbuilt.output (perm_found hinfo hi hask) hends'

/-! ## A node that replaces another -/

namespace TypeIndexWitness

/-- A node feeds another, which is removed and replaced by one of its name and its type. The entry goes with a type. -/
def replacing (opType : Option String) : List IndexCall :=
  let relu : OpDesc := { opDef := { name := "n", type := "Relu" }, inputsDesc := [{}] }
  [.newOp { opDef := { name := "x", type := "Data" }, outputsDesc := [{}] }, .add (.addOpNode (some 0)) none,
    .newOp relu, .add (.addOpNode (some 1)) none, .edge (.addDataEdge (some 2) (some 5)), .remove 1 opType,
    .newOp relu, .newNode 2, .add (.addNode (some 2)) (some "Relu"), .edge (.addDataEdge (some 2) (some 8))]

/-- The graph and its index after it. -/
def replaced (opType : Option String) : PassGraph := (Run.exec (IndexCall.step fun _ => "") (replacing opType) (.indexed 0)).getD {}

theorem exec_replacing {opType : Option String}
    (h : (Run.exec (IndexCall.step fun _ => "") (replacing opType) (.indexed 0)).isSome = true) :
    Run.exec (IndexCall.step fun _ => "") (replacing opType) (.indexed 0) = some (replaced opType) := by
  obtain ⟨s, hs⟩ := Option.isSome_iff_exists.mp h
  rw [replaced, hs, Option.getD_some]

/-- An activation. -/
def patternCalls : List PatternCall :=
  [.addOpDesc "relu" ["Relu"], .addOpDesc "data" ["Data"], .setInputs "relu" ["data"], .setOutput "relu"]

def activation : FusionPattern := (PatternCall.runAll patternCalls).build.1

/-- With its entry removed, the node that replaces it is the one candidate. -/
theorem matchAll_indexed_replaced :
    (replaced (some "Relu")).Asked (fun _ => "") activation 0 ∧
      matchOutputNodes (fun _ => "") (replaced (some "Relu")) ["Relu"] = [2] ∧
      ∃ out, activation.getOutput = some out ∧ ((replaced (some "Relu")).Asked (fun _ => "") activation out → ∃ bound, ∀ fuel,
        bound < fuel → ∃ ok indexed scanned,
          GraphFusionPassBase.matchAll (fun _ => "") fuel (replaced (some "Relu")) activation = some (ok, indexed) ∧
          GraphFusionPassBase.matchAll (fun _ => "") fuel (replaced (some "Relu")).withoutIndex activation = some (ok, scanned) ∧
          (ok = true → indexed.Perm scanned)) := by
  have hcareful : Run.Each (IndexCall.step fun _ => "") (IndexCall.Careful fun _ => "") (replacing (some "Relu")) (.indexed 0) := by
    decide +kernel
  refine ⟨by decide +kernel, by decide +kernel, ?_⟩
  obtain ⟨out, hout, h⟩ := matchAll_indexed (fun _ => "") (fun _ => none) id 0 _ _ hcareful (exec_replacing (by decide +kernel))
    patternCalls activation (by decide +kernel)
  refine ⟨out, hout, fun hask => ?_⟩
  obtain ⟨bound, hall⟩ := h hask
  exact ⟨bound, fun fuel hfuel => (hall fuel hfuel).2.2 .graphFusion⟩

/-- Without, the entry of the node that is gone stays, and the node that replaces it is found in the node list only. -/
theorem matchAll_indexed_false :
    Run.exec (IndexCall.step fun _ => "") (replacing none) (.indexed 0) = some (replaced none) ∧
      (((replaced none).heap.graph 0).nodes.map (Node.getName (replaced none).heap)).Nodup ∧
      (PatternCall.runAll patternCalls).build = (activation, true) ∧
      ¬((matchOutputNodes (fun _ => "") (replaced none) ["Relu"]).filter (matchesFrom (fun _ => "") 5 (replaced none) activation 0)).Perm
        ((matchOutputNodes (fun _ => "") (replaced none).withoutIndex ["Relu"]).filter
          (matchesFrom (fun _ => "") 5 (replaced none) activation 0)) ∧
      GraphFusionPassBase.matchAll (fun _ => "") 5 (replaced none) activation = some (false, []) ∧
      GraphFusionPassBase.matchAll (fun _ => "") 5 (replaced none).withoutIndex activation = some (true, [[(0, [2]), (1, [0])]]) := by
  refine ⟨exec_replacing (by decide +kernel), by decide +kernel, by decide +kernel, fun hperm => ?_, by decide +kernel,
    by decide +kernel⟩
  have hindexed : matchOutputNodes (fun _ => "") (replaced none) ["Relu"] = [] := by decide +kernel
  have hscanned : (matchOutputNodes (fun _ => "") (replaced none).withoutIndex ["Relu"]).filter
      (matchesFrom (fun _ => "") 5 (replaced none) activation 0) = [2] := by decide +kernel
  rw [hindexed, hscanned] at hperm
  exact absurd hperm.length_eq (by decide)

end TypeIndexWitness

end Metadef
