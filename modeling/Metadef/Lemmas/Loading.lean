import Metadef.Lemmas.NewNodes
import Metadef.ModelSerialize

/-!
# What reading a graph leaves

Reading makes new objects and leaves those that were made. A graph read has a node for each operator of its message, over the
descriptor read from it, and the reader knows the last node of each name.
-/

namespace Metadef

open List Heap Nat

/-- What was made stays: descriptors, nodes, and the names and nodes of graphs. -/
structure Heap.Extended (h h' : Heap) : Prop where
  opCount : h.opCount ≤ h'.opCount
  nodeCount : h.nodeCount ≤ h'.nodeCount
  graphCount : h.graphCount ≤ h'.graphCount
  op : ∀ o < h.opCount, h'.op o = h.op o
  node : ∀ n < h.nodeCount, h'.node n = h.node n
  name : ∀ g < h.graphCount, (h'.graph g).name = (h.graph g).name
  nodes : ∀ g < h.graphCount, (h'.graph g).nodes = (h.graph g).nodes

/-- The parents of a graph and the graphs registered in it. -/
def ComputeGraph.nesting (g : ComputeGraph) : Option GraphId × Option NodeId × List GraphId × OrderedMap String GraphId :=
  (g.parentGraph, g.parentNode, g.subGraph, g.namesToSubgraph)

/-- A node of a graph read from the message of an operator. -/
structure Heap.NodeRead (h : Heap) (g : GraphId) (n : NodeId) (o : OpDef) : Prop where
  made : n < h.nodeCount
  opMade : (h.node n).op < h.opCount
  owner : (h.node n).ownerGraph = some g
  desc : h.desc n = ModelSerializeImp.unserializeOpDesc o
  inputs : (h.node n).inDataAnchors.length = o.inputDesc.length
  outputs : (h.node n).outDataAnchors.length = o.outputDesc.length

/-- A graph read from a message. -/
structure Heap.GraphRead (h : Heap) (g : GraphId) (d : GraphDef) : Prop where
  made : g < h.graphCount
  name : (h.graph g).name = d.name
  nodes : List.Forall₂ (h.NodeRead g) (h.graph g).nodes d.op

/-- The last item of a list that has a name. -/
def lastNamed {α : Type} (name : α → String) (l : List α) (s : String) : Option α := l.reverse.find? fun x => name x = s

/-- What a reader asks for once it has read the nodes of a graph: the links of each, and the ends of the graph. -/
structure Heap.Asked (h : Heap) (g : GraphId) (d : GraphDef) (imp : ModelSerializeImp) : Prop where
  links : imp.nodeInputNodeNames =
    ((h.graph g).nodes.zip d.op).flatMap fun e => ModelSerializeImp.readInputs e.1 e.2.name e.2.input 0
  inputs : imp.graphInputNodeNames = ModelSerializeImp.readEnds g d.input
  outputs : imp.graphOutputNodeNames = ModelSerializeImp.readEnds g d.output
  nodeMap : ∀ s, Option.Rel (fun n o => n ∈ (h.graph g).nodes ∧ h.NodeRead g n o) (imp.nodeMap.find s)
    (lastNamed OpDef.name d.op s)

/-- Only the links, and the ends and the nesting of graphs differ. -/
structure Heap.Renested (h h' : Heap) : Prop where
  opCount : h'.opCount = h.opCount
  nodeCount : h'.nodeCount = h.nodeCount
  graphCount : h'.graphCount = h.graphCount
  op : h'.op = h.op
  node : h'.node = h.node
  name : ∀ g, (h'.graph g).name = (h.graph g).name
  nodes : ∀ g, (h'.graph g).nodes = (h.graph g).nodes

/-- Only the links and the ends of graphs differ. -/
structure Heap.Rewired (h h' : Heap) : Prop extends h.Renested h' where
  nesting : ∀ g, (h'.graph g).nesting = (h.graph g).nesting

namespace ModelSerializeImp

/-- Whether a link that an operator of as many inputs asks for can be met by the operators of its message. -/
def linkMet (ops : List OpDef) (inputs : Nat) (item : NodeNameNodeReq) : Bool :=
  match lastNamed OpDef.name ops item.srcNodeName with
  | none => false
  | some src => item.srcOutIndex < 0 || (item.srcOutIndex < src.outputDesc.length && item.dstInIndex < inputs)

/-- Whether the operators of a message include those its ends name. -/
def endsMet (ops : List OpDef) (ends : List String) : Bool :=
  (ends.filterMap parseNodeIndex).all fun e => (lastNamed OpDef.name ops e.1).isSome

/-- Whether all that a message asks for can be met. Which node asks for a link makes no difference. -/
def met (d : GraphDef) : Bool :=
  (d.op.all fun o => (readInputs 0 o.name o.input 0).all
    (linkMet d.op o.inputDesc.length)) && endsMet d.op d.input && endsMet d.op d.output

end ModelSerializeImp

namespace LoadingAux

open Cmd ModelSerializeImp NewNodesAux

variable {h t u : Heap} {g : GraphId} {n m : NodeId} {d : OpDef} {o : OpId}

/-! ## Frames -/

variable {α β : Type} {r : α → β → Prop} {x : ComputeGraph}

theorem optionRel_imp {q : α → β → Prop} (hrq : ∀ a b, r a b → q a b) {a : Option α} {b : Option β}
    (hab : Option.Rel r a b) : Option.Rel q a b := by
  cases hab with
  | none => exact .none
  | some hab => exact .some (hrq _ _ hab)

theorem Extended.refl (h : Heap) : h.Extended h :=
  ⟨Nat.le_refl _, Nat.le_refl _, Nat.le_refl _, fun _ _ => rfl, fun _ _ => rfl, fun _ _ => rfl, fun _ _ => rfl⟩

theorem Extended.trans (h₁ : h.Extended t) (h₂ : t.Extended u) : h.Extended u where
  opCount := h₁.opCount.trans h₂.opCount
  nodeCount := h₁.nodeCount.trans h₂.nodeCount
  graphCount := h₁.graphCount.trans h₂.graphCount
  op o ho := (h₂.op o (Nat.lt_of_lt_of_le ho h₁.opCount)).trans (h₁.op o ho)
  node n hn := (h₂.node n (Nat.lt_of_lt_of_le hn h₁.nodeCount)).trans (h₁.node n hn)
  name g hg := (h₂.name g (Nat.lt_of_lt_of_le hg h₁.graphCount)).trans (h₁.name g hg)
  nodes g hg := (h₂.nodes g (Nat.lt_of_lt_of_le hg h₁.graphCount)).trans (h₁.nodes g hg)

/-- A node read stays read where descriptors and nodes stay. -/
theorem NodeRead.of_kept (hr : h.NodeRead g n d) (hop : h.opCount ≤ t.opCount) (hnode : h.nodeCount ≤ t.nodeCount)
    (hops : ∀ o < h.opCount, t.op o = h.op o) (hnodes : ∀ n < h.nodeCount, t.node n = h.node n) : t.NodeRead g n d := by
  have hn := hnodes n hr.made
  refine ⟨Nat.lt_of_lt_of_le hr.made hnode, ?_, ?_, ?_, ?_, ?_⟩
  · rw [hn]
    exact Nat.lt_of_lt_of_le hr.opMade hop
  · rw [hn, hr.owner]
  · rw [Heap.desc, hn, hops _ hr.opMade]
    exact hr.desc
  · rw [hn, hr.inputs]
  · rw [hn, hr.outputs]

theorem NodeRead.extended (hr : h.NodeRead g n d) (he : h.Extended t) : t.NodeRead g n d :=
  NodeRead.of_kept hr he.opCount he.nodeCount he.op he.node

theorem GraphRead.extended {d : GraphDef} (hr : h.GraphRead g d) (he : h.Extended t) : t.GraphRead g d where
  made := Nat.lt_of_lt_of_le hr.made he.graphCount
  name := (he.name g hr.made).trans hr.name
  nodes := by
    rw [he.nodes g hr.made]
    exact hr.nodes.imp fun n d hn => NodeRead.extended hn he

/-- What is asked for of a graph read stays asked for. -/
theorem Asked.extended {d : GraphDef} {imp : ModelSerializeImp} (hask : h.Asked g d imp) (hread : h.GraphRead g d)
    (he : h.Extended t) : t.Asked g d imp := by
  refine ⟨?_, hask.inputs, hask.outputs, fun s => ?_⟩
  · rw [he.nodes g hread.made]
    exact hask.links
  · rw [he.nodes g hread.made]
    exact optionRel_imp (fun n o hno => ⟨hno.1, NodeRead.extended hno.2 he⟩) (hask.nodeMap s)

/-! ## Reading the nodes of a graph -/

theorem addSubgraphNames_descs (names : List String) : ∀ (i : Nat) (op : OpDesc),
    (addSubgraphNames names i op).inputsDesc = op.inputsDesc ∧ (addSubgraphNames names i op).outputsDesc = op.outputsDesc ∧
      (addSubgraphNames names i op).opDef = op.opDef := by
  induction names with
  | nil => exact fun _ _ => ⟨rfl, rfl, rfl⟩
  | cons name names ih =>
    intro i op
    obtain ⟨hin, hout, hdef⟩ := ih ((i + 1) % 2 ^ 32) ((op.addSubgraphName name).2.setSubgraphInstanceName i name).2
    rw [addSubgraphNames, hin, hout, hdef]
    simp only [OpDesc.setSubgraphInstanceName, OpDesc.addSubgraphName]
    repeat' split
    all_goals exact ⟨rfl, rfl, rfl⟩

/-- A descriptor read has the name, the inputs and the outputs of its message. -/
theorem unserializeOpDesc_descs (d : OpDef) : (unserializeOpDesc d).getAllInputsSize = d.inputDesc.length ∧
    (unserializeOpDesc d).getOutputsSize = d.outputDesc.length ∧ (unserializeOpDesc d).getName = d.name := by
  unfold unserializeOpDesc attrDefToOpDesc OpDesc.getAllInputsSize OpDesc.getOutputsSize OpDesc.getName
  dsimp only
  obtain ⟨hin, hout, hdef⟩ := addSubgraphNames_descs d.subgraphName 0
    { opDef := { d with inputNameKey := none, inputNameValue := none, outputNameKey := none, outputNameValue := none
                        optInput := none }
      inputsDesc := d.inputDesc, outputsDesc := d.outputDesc }
  rw [hin, hout, hdef]
  exact ⟨rfl, rfl, rfl⟩

/-- The requests of a reader with those of one more node. -/
def readNode (n : NodeId) (d : OpDef) (imp : ModelSerializeImp) : ModelSerializeImp :=
  { imp with nodeInputNodeNames := imp.nodeInputNodeNames ++ readInputs n d.name d.input 0, nodeMap := imp.nodeMap.assign d.name n }

/-- Reading a node makes one and lists it last. -/
theorem unserializeNode_spec (g : GraphId) (d : OpDef) (imp : ModelSerializeImp) (h : Heap) :
    ∃ t, unserializeNode g d imp h = some ((true, readNode h.nodeCount d imp), t) ∧ t.graphCount = h.graphCount ∧
      h.opCount ≤ t.opCount ∧ h.nodeCount ≤ t.nodeCount ∧ (∀ o < h.opCount, t.op o = h.op o) ∧
      (∀ m < h.nodeCount, t.node m = h.node m) ∧ t.NodeRead g h.nodeCount d ∧
      t.graph = Function.update h.graph g ((h.graph g).pushBackToNodeList h.nodeCount) := by
  obtain ⟨t, hmake, hops, hnodes, hgraphs, hop, hgraph, hold, hnewOp, hnewOwner, hin, hout⟩ :=
    make_spec h.opCount (some g) (LinkCall.makeOp (unserializeOpDesc d) h)
  have hsame : (LinkCall.makeOp (unserializeOpDesc d) h).setOp h.opCount
      (((LinkCall.makeOp (unserializeOpDesc d) h).op h.opCount).setId
        ((LinkCall.makeOp (unserializeOpDesc d) h).op h.opCount).getId) =
      LinkCall.makeOp (unserializeOpDesc d) h := by
    simp [Heap.setOp, OpDesc.setId, OpDesc.getId]
  have hread : (LinkCall.makeOp (unserializeOpDesc d) h).op h.opCount = unserializeOpDesc d := by
    simp [LinkCall.makeOp, Heap.setOp]
  have hrun : unserializeNode g d imp h = some ((true, readNode h.nodeCount d imp),
      (t.setNode h.nodeCount { t.node h.nodeCount with hostNode := (t.graph g).isValidFlag }).setGraph g
        ((t.graph g).pushBackToNodeList h.nodeCount)) := by
    unfold unserializeNode ComputeGraph.addOpNodeWithId ComputeGraph.edit
    simp only [get_bind_apply, modify_bind_apply]
    rw [bind_of_eq (a := some h.nodeCount) (t := _)]
    · rfl
    · rw [modify_bind_apply, hsame, bind_of_eq hmake]
      rfl
  refine ⟨_, hrun, hgraphs, ?_, ?_, ?_, ?_, ?_, ?_⟩
  · show h.opCount ≤ t.opCount
    rw [hops]
    exact le_succ _
  · show h.nodeCount ≤ t.nodeCount
    rw [hnodes]
    exact le_succ _
  · intro o ho
    show t.op o = h.op o
    rw [hop]
    simp [LinkCall.makeOp, Heap.setOp, Nat.ne_of_lt ho]
  · intro m hm
    have hne : m ≠ h.nodeCount := Nat.ne_of_lt hm
    rw [setGraph_node, setNode_node, if_neg hne]
    exact hold m hm
  · have hnode : ((t.setNode h.nodeCount { t.node h.nodeCount with hostNode := (t.graph g).isValidFlag }).setGraph g
        ((t.graph g).pushBackToNodeList h.nodeCount)).node h.nodeCount =
        { t.node h.nodeCount with hostNode := (t.graph g).isValidFlag } := by
      simp
    obtain ⟨hinputs, houtputs, -⟩ := unserializeOpDesc_descs d
    refine ⟨?_, ?_, ?_, ?_, ?_, ?_⟩
    · show h.nodeCount < t.nodeCount
      rw [hnodes]
      exact lt_succ_self _
    · rw [hnode]
      show (t.node h.nodeCount).op < t.opCount
      rw [show (t.node h.nodeCount).op = h.opCount from hnewOp, hops]
      exact lt_succ_self _
    · rw [hnode]
      exact hnewOwner
    · rw [Heap.desc, hnode]
      show t.op (t.node h.nodeCount).op = _
      rw [show (t.node h.nodeCount).op = h.opCount from hnewOp, hop, hread]
    · rw [hnode]
      show (t.node h.nodeCount).inDataAnchors.length = _
      rw [← hinputs, ← hread]
      exact hin
    · rw [hnode]
      show (t.node h.nodeCount).outDataAnchors.length = _
      rw [← houtputs, ← hread]
      exact hout
  · show Function.update t.graph g ((t.graph g).pushBackToNodeList h.nodeCount) = _
    rw [hgraph]
    rfl

theorem lastNamed_concat (name : α → String) (l : List α) (x : α) (s : String) :
    lastNamed name (l ++ [x]) s = if name x = s then some x else lastNamed name l s := by
  unfold lastNamed
  rw [reverse_append, reverse_singleton, singleton_append, find?_cons]
  by_cases hx : name x = s <;> simp [hx]

/-- Reading the nodes of a graph goes on from those it has read, and leaves the rest. -/
theorem unserializeNodes_spec {h₀ : Heap} {g : GraphId} {name : String} {input output : List String}
    (hg : h₀.graphCount ≤ g) (l : List OpDef) : ∀ {done : List OpDef} {imp : ModelSerializeImp} {h : Heap}, h₀.Extended h →
      h.GraphRead g { name, input, output, op := done } → h.Asked g { name, input, output, op := done } imp →
      ∃ imp' t, unserializeNodes g l imp h = some ((true, imp'), t) ∧ h₀.Extended t ∧ t.graphCount = h.graphCount ∧
        (∀ x, (t.graph x).nesting = (h.graph x).nesting) ∧ t.GraphRead g { name, input, output, op := done ++ l } ∧
        t.Asked g { name, input, output, op := done ++ l } imp' := by
  induction l with
  | nil =>
    intro done imp h he hread hask
    rw [append_nil]
    exact ⟨imp, h, rfl, he, rfl, fun _ => rfl, hread, hask⟩
  | cons d l ih =>
    intro done imp h he hread hask
    obtain ⟨t, hrun, hgraphs, hops, hnodes, hop, hnode, hnew, hgraph⟩ := unserializeNode_spec g d imp h
    have hthis : t.graph g = (h.graph g).pushBackToNodeList h.nodeCount := by rw [hgraph, Function.update_self]
    have hother : ∀ x, x ≠ g → t.graph x = h.graph x := fun x hx => by rw [hgraph, Function.update_of_ne hx]
    have hold : ∀ n o, h.NodeRead g n o → t.NodeRead g n o := fun n o hr => NodeRead.of_kept hr hops hnodes hop hnode
    have hlen := hread.nodes.length_eq
    have hext : h₀.Extended t := by
      refine ⟨he.opCount.trans hops, he.nodeCount.trans hnodes, he.graphCount.trans (Nat.le_of_eq hgraphs.symm), fun o ho => ?_,
        fun n hn => ?_, fun x hx => ?_, fun x hx => ?_⟩
      · exact (hop o (Nat.lt_of_lt_of_le ho he.opCount)).trans (he.op o ho)
      · exact (hnode n (Nat.lt_of_lt_of_le hn he.nodeCount)).trans (he.node n hn)
      · rw [hother x (Nat.ne_of_lt (Nat.lt_of_lt_of_le hx hg))]
        exact he.name x hx
      · rw [hother x (Nat.ne_of_lt (Nat.lt_of_lt_of_le hx hg))]
        exact he.nodes x hx
    have hread' : t.GraphRead g { name, input, output, op := done ++ [d] } := by
      refine ⟨?_, ?_, ?_⟩
      · rw [hgraphs]
        exact hread.made
      · rw [hthis]
        exact hread.name
      · rw [hthis]
        exact rel_append (hread.nodes.imp hold) (.cons hnew .nil)
    have hask' : t.Asked g { name, input, output, op := done ++ [d] } (readNode h.nodeCount d imp) := by
      refine ⟨?_, hask.inputs, hask.outputs, fun s => ?_⟩
      · rw [hthis]
        show imp.nodeInputNodeNames ++ _ = (((h.graph g).nodes ++ [h.nodeCount]).zip (done ++ [d])).flatMap _
        rw [hask.links, zip_append hlen]
        simp
      · show Option.Rel _ ((imp.nodeMap.assign d.name h.nodeCount).find s) _
        rw [OrderedMap.find_assign, lastNamed_concat]
        have hmem : ∀ n, n = h.nodeCount ∨ n ∈ (h.graph g).nodes → n ∈ (t.graph g).nodes := by
          intro n hn
          rw [hthis]
          show n ∈ (h.graph g).nodes ++ [h.nodeCount]
          simpa using hn.symm
        by_cases hs : d.name = s
        · rw [if_pos hs, if_pos hs.symm]
          exact .some ⟨hmem _ (.inl rfl), hnew⟩
        · rw [if_neg hs, if_neg fun e => hs e.symm]
          exact optionRel_imp (fun n o hno => ⟨hmem n (.inr hno.1), hold n o hno.2⟩) (hask.nodeMap s)
    obtain ⟨imp', u, hrest, hext', hcount, hnest, hread'', hask''⟩ := ih hext hread' hask'
    rw [append_assoc] at hread'' hask''
    refine ⟨imp', u, ?_, hext', hcount.trans hgraphs, fun x => ?_, hread'', hask''⟩
    · rw [unserializeNodes, bind_of_eq hrun]
      simpa using hrest
    · rw [hnest]
      by_cases hx : x = g
      · rw [hx, hthis]
        rfl
      · rw [hother x hx]

/-- A graph that is read is new, and has neither parents nor graphs registered in it. -/
theorem unserializeGraphWithoutEdge_spec (d : GraphDef) (h : Heap) :
    ∃ imp t, unserializeGraphWithoutEdge d {} h = some ((true, h.graphCount, imp), t) ∧ t.graphCount = h.graphCount + 1 ∧
      h.Extended t ∧ (∀ x < h.graphCount, (t.graph x).nesting = (h.graph x).nesting) ∧
      (t.graph h.graphCount).nesting = (none, none, [], []) ∧ t.GraphRead h.graphCount d ∧ t.Asked h.graphCount d imp := by
  obtain ⟨start, hstart⟩ : ∃ start : Heap, start = { h with graphCount := h.graphCount + 1 }.setGraph h.graphCount
    { name := d.name } :=
    ⟨_, rfl⟩
  have hold : ∀ x < h.graphCount, start.graph x = h.graph x := fun x hx => by simp [hstart, Nat.ne_of_lt hx]
  have hnew : start.graph h.graphCount = { name := d.name } := by simp [hstart]
  have hext : h.Extended start := by
    refine ⟨?_, ?_, ?_, fun o _ => ?_, fun n _ => ?_, fun x hx => by rw [hold x hx], fun x hx => by rw [hold x hx]⟩
    all_goals rw [hstart]
    · exact Nat.le_refl _
    · exact Nat.le_refl _
    · exact le_succ _
    · rfl
    · rfl
  have hcount : start.graphCount = h.graphCount + 1 := by rw [hstart]; rfl
  have hread : start.GraphRead h.graphCount { name := d.name, input := d.input, output := d.output, op := [] } :=
    ⟨by rw [hcount]; exact lt_succ_self _, by rw [hnew], by rw [hnew]; exact .nil⟩
  have hask : start.Asked h.graphCount { name := d.name, input := d.input, output := d.output, op := [] }
      { graphInputNodeNames := readEnds h.graphCount d.input, graphOutputNodeNames := readEnds h.graphCount d.output } :=
    ⟨by rw [hnew]; rfl, rfl, rfl, fun _ => .none⟩
  obtain ⟨imp, t, hrun, hext', hcount', hnest, hread', hask'⟩ :=
    unserializeNodes_spec (Nat.le_refl _) d.op hext hread hask
  refine ⟨imp, t, ?_, hcount'.trans hcount, hext', fun x hx => ?_, ?_, hread', hask'⟩
  · unfold unserializeGraphWithoutEdge makeGraph
    have hmake : (do
        let h ← get
        set ({ h with graphCount := h.graphCount + 1 }.setGraph h.graphCount { name := d.name })
        return h.graphCount : Cmd Heap GraphId) h = some (h.graphCount, start) := by
      rw [hstart]
      rfl
    rw [bind_of_eq hmake]
    simp only [nil_append]
    rw [bind_of_eq hrun]
    rfl
  · rw [hnest, hold x hx]
  · rw [hnest, hnew]
    rfl

/-! ## Meeting requests -/

theorem Renested.refl (h : Heap) : h.Renested h := ⟨rfl, rfl, rfl, rfl, rfl, fun _ => rfl, fun _ => rfl⟩

theorem Renested.trans (h₁ : h.Renested t) (h₂ : t.Renested u) : h.Renested u where
  opCount := h₂.opCount.trans h₁.opCount
  nodeCount := h₂.nodeCount.trans h₁.nodeCount
  graphCount := h₂.graphCount.trans h₁.graphCount
  op := h₂.op.trans h₁.op
  node := h₂.node.trans h₁.node
  name g := (h₂.name g).trans (h₁.name g)
  nodes g := (h₂.nodes g).trans (h₁.nodes g)

theorem Renested.extended (hr : h.Renested t) : h.Extended t where
  opCount := Nat.le_of_eq hr.opCount.symm
  nodeCount := Nat.le_of_eq hr.nodeCount.symm
  graphCount := Nat.le_of_eq hr.graphCount.symm
  op o _ := by rw [hr.op]
  node n _ := by rw [hr.node]
  name g _ := hr.name g
  nodes g _ := hr.nodes g

/-- Editing a graph but for its name and nodes. -/
theorem Renested.edit (hname : x.name = (h.graph g).name) (hnodes : x.nodes = (h.graph g).nodes) :
    h.Renested (h.setGraph g x) := by
  refine ⟨rfl, rfl, rfl, rfl, rfl, fun y => ?_, fun y => ?_⟩
  all_goals
    rw [setGraph_graph]
    split
    · subst_vars
      assumption
    · rfl

theorem Rewired.refl (h : Heap) : h.Rewired h := ⟨Renested.refl h, fun _ => rfl⟩

theorem Rewired.trans (h₁ : h.Rewired t) (h₂ : t.Rewired u) : h.Rewired u where
  toRenested := Renested.trans h₁.toRenested h₂.toRenested
  nesting g := (h₂.nesting g).trans (h₁.nesting g)

/-- Editing a graph but for its name, nodes and nesting rewires. -/
theorem Rewired.edit (hname : x.name = (h.graph g).name) (hnodes : x.nodes = (h.graph g).nodes)
    (hnesting : x.nesting = (h.graph g).nesting) : h.Rewired (h.setGraph g x) := by
  refine ⟨Renested.edit hname hnodes, fun y => ?_⟩
  rw [setGraph_graph]
  split
  · subst_vars
    assumption
  · rfl

/-- A linking function returns, and rewires. -/
theorem link_returns (this other : AnchorId) (free : Heap → AnchorId → Bool) (h : Heap) :
    ∃ ok t, Anchor.link this (some other) free h = some (ok, t) ∧ h.Rewired t := by
  simp only [Anchor.link, get_bind_apply]
  cases free h other with
  | false => exact ⟨false, h, rfl, Rewired.refl h⟩
  | true => exact ⟨true, Anchor.linked h this other, rfl, ⟨⟨rfl, rfl, rfl, rfl, rfl, fun _ => rfl, fun _ => rfl⟩, fun _ => rfl⟩⟩

/-- A link asked for is made or refused as the messages say. -/
theorem handleEdge_spec {ops : List OpDef} {imp : ModelSerializeImp}
    (hmap : ∀ s, Option.Rel (h.NodeRead g) (imp.nodeMap.find s) (lastNamed OpDef.name ops s)) (item : NodeNameNodeReq) :
    ∃ t, handleEdge imp item h = some (linkMet ops (h.node item.dstNode).inDataAnchors.length item, t) ∧ h.Rewired t := by
  have hsrc := hmap item.srcNodeName
  unfold handleEdge linkMet
  revert hsrc
  generalize imp.nodeMap.find item.srcNodeName = found
  generalize lastNamed OpDef.name ops item.srcNodeName = last
  rintro (hn | -)
  · rename_i n o
    simp only [get_bind_apply]
    by_cases hidx : 0 ≤ item.srcOutIndex
    · have hneg : ¬ item.srcOutIndex < 0 := Int.not_lt.mpr hidx
      have hout : Node.getOutDataAnchor h n item.srcOutIndex = (h.node n).outDataAnchors[item.srcOutIndex.toNat]? := if_neg hneg
      have hin : Node.getInDataAnchor h item.dstNode item.dstInIndex = (h.node item.dstNode).inDataAnchors[item.dstInIndex]? := by
        unfold Node.getInDataAnchor
        rw [if_neg (Int.not_lt.mpr (Int.natCast_nonneg _)), Int.toNat_natCast]
      rw [if_pos hidx, hout, hin]
      by_cases hlt : item.srcOutIndex.toNat < o.outputDesc.length
      · have hlt' : item.srcOutIndex < o.outputDesc.length := by omega
        have hsrc : item.srcOutIndex.toNat < (h.node n).outDataAnchors.length := hn.outputs ▸ hlt
        rw [getElem?_eq_getElem hsrc]
        by_cases hdlt : item.dstInIndex < (h.node item.dstNode).inDataAnchors.length
        · rw [getElem?_eq_getElem hdlt]
          obtain ⟨ok, t, hlink, hre⟩ := link_returns (h.node n).outDataAnchors[item.srcOutIndex.toNat]
            (h.node item.dstNode).inDataAnchors[item.dstInIndex] (fun h dest => (h.peers dest).isEmpty) h
          refine ⟨t, ?_, hre⟩
          dsimp only
          unfold OutDataAnchor.linkTo
          rw [bind_of_eq hlink]
          simp [hlt', hdlt]
        · rw [getElem?_eq_none (Nat.le_of_not_lt hdlt)]
          exact ⟨h, by simp [hneg, hdlt], Rewired.refl h⟩
      · rw [getElem?_eq_none (by rw [hn.outputs]; omega)]
        have hlt' : ¬ item.srcOutIndex < o.outputDesc.length := by omega
        exact ⟨h, by simp [hneg, hlt'], Rewired.refl h⟩
    · obtain ⟨ok, t, hlink, hre⟩ := link_returns (h.node n).outControlAnchor (h.node item.dstNode).inControlAnchor
        (fun _ _ => true) h
      refine ⟨t, ?_, hre⟩
      rw [if_neg hidx]
      unfold OutControlAnchor.linkTo
      rw [bind_of_eq hlink]
      simp [Int.lt_of_not_ge hidx]
  · exact ⟨h, rfl, Rewired.refl h⟩

/-- An input asked for is entered when its node is known. -/
theorem handleInput_spec (imp : ModelSerializeImp) (item : NodeNameGraphReq)
    (hmap : ∀ n, imp.nodeMap.find item.nodeName = some n → n ∈ (h.graph item.graph).nodes) :
    ∃ t, handleInput imp item h = some ((imp.nodeMap.find item.nodeName).isSome, t) ∧ h.Rewired t := by
  unfold handleInput
  cases hfind : imp.nodeMap.find item.nodeName with
  | none => exact ⟨h, rfl, Rewired.refl h⟩
  | some n =>
    have hn := hmap n hfind
    refine ⟨h.setGraph item.graph { h.graph item.graph with inputNodes := (h.graph item.graph).inputNodes ++ [n] }, ?_,
      Rewired.edit rfl rfl rfl⟩
    have hadd : ComputeGraph.addInputNode item.graph (some n) h = some (some n, h.setGraph item.graph
        { h.graph item.graph with inputNodes := (h.graph item.graph).inputNodes ++ [n] }) := by
      simp only [ComputeGraph.addInputNode, ComputeGraph.edit, modify_bind_apply, get_bind_apply]
      rw [setGraph_graph, if_pos rfl, if_pos hn]
      rfl
    dsimp only
    rw [bind_of_eq hadd]
    rfl

/-- An output asked for is entered, or was there, when its node is known. -/
theorem handleOutput_spec (imp : ModelSerializeImp) (item : NodeNameGraphReq)
    (hmap : ∀ n, imp.nodeMap.find item.nodeName = some n → n ∈ (h.graph item.graph).nodes) :
    ∃ t, handleOutput imp item h = some ((imp.nodeMap.find item.nodeName).isSome, t) ∧ h.Rewired t := by
  unfold handleOutput
  cases hfind : imp.nodeMap.find item.nodeName with
  | none => exact ⟨h, rfl, Rewired.refl h⟩
  | some n =>
    have hn := hmap n hfind
    obtain ⟨r, t, hadd, hre⟩ : ∃ r t, ComputeGraph.addOutputNodeByIndex item.graph (some n) item.index h = some (some r, t) ∧
        h.Rewired t := by
      simp only [ComputeGraph.addOutputNodeByIndex, ComputeGraph.edit, get_bind_apply]
      cases hhad : (h.graph item.graph).outputNodesInfo.find? fun e =>
          Node.getName h e.1 = Node.getName h n && e.2 = item.index with
      | none =>
        refine ⟨n, h.setGraph item.graph { h.graph item.graph with outputNodesInfo :=
          (h.graph item.graph).outputNodesInfo ++ [(n, item.index)] }, ?_, Rewired.edit rfl rfl rfl⟩
        simp [hn]
      | some e => exact ⟨e.1, h, by simp [hn], Rewired.refl h⟩
    refine ⟨t, ?_, hre⟩
    dsimp only
    rw [bind_of_eq hadd]
    rfl

/-- Which node asks for a link changes the requests in their node only. -/
theorem readInputs_map (n : NodeId) (name : String) (l : List String) : ∀ i,
    readInputs n name l i = (readInputs 0 name l i).map fun item => { item with dstNode := n } := by
  induction l with
  | nil => exact fun _ => rfl
  | cons input l ih =>
    intro i
    unfold readInputs
    split
    · exact ih _
    · rw [map_cons, ih]

theorem zip_all_eq {p : α × β → Bool} {q : β → Bool} {l : List α} {l' : List β}
    (hl : List.Forall₂ r l l') (hpq : ∀ a b, r a b → p (a, b) = q b) : (l.zip l').all p = l'.all q := by
  induction hl with
  | nil => rfl
  | cons hab _ ih => rw [zip_cons_cons, all_cons, all_cons, hpq _ _ hab, ih]

/-- What a reader asks for is met as its message says. -/
theorem handleNodeNameRef_spec {d : GraphDef} {imp : ModelSerializeImp} (hread : h.GraphRead g d) (hask : h.Asked g d imp) :
    ∃ t, handleNodeNameRef imp h = some (met d, t) ∧ h.Rewired t := by
  have hmap : ∀ u, h.Rewired u → ∀ s, Option.Rel (u.NodeRead g) (imp.nodeMap.find s) (lastNamed OpDef.name d.op s) :=
    fun u hu s => optionRel_imp (fun n o hno => NodeRead.extended hno.2 (Renested.extended hu.toRenested)) (hask.nodeMap s)
  have hnodes : ∀ u, h.Rewired u → ∀ s n, imp.nodeMap.find s = some n → n ∈ (u.graph g).nodes := by
    intro u hu s n hn
    have hs := hask.nodeMap s
    rw [hn] at hs
    cases hs' : lastNamed OpDef.name d.op s with
    | none =>
      rw [hs'] at hs
      cases hs
    | some o =>
      rw [hs'] at hs
      cases hs with
      | some hno =>
        rw [hu.nodes]
        exact hno.1
  have hknown : ∀ s, (imp.nodeMap.find s).isSome = (lastNamed OpDef.name d.op s).isSome := by
    intro s
    have hs := hask.nodeMap s
    revert hs
    generalize imp.nodeMap.find s = found
    generalize lastNamed OpDef.name d.op s = last
    rintro (- | -) <;> rfl
  have hends : ∀ ends : List String, ((readEnds g ends).all fun item => (imp.nodeMap.find item.nodeName).isSome) =
      endsMet d.op ends := by
    intro ends
    unfold readEnds endsMet
    rw [all_map]
    exact congrArg _ (funext fun e => hknown e.1)
  have hlinks : (imp.nodeInputNodeNames.all fun item => linkMet d.op (h.node item.dstNode).inDataAnchors.length item) =
      d.op.all fun o => (readInputs 0 o.name o.input 0).all (linkMet d.op o.inputDesc.length) := by
    rw [hask.links, all_flatMap]
    refine zip_all_eq hread.nodes fun n o hno => ?_
    rw [readInputs_map, all_map]
    refine congrArg _ (funext fun item => ?_)
    show linkMet d.op (h.node n).inDataAnchors.length _ = _
    rw [hno.inputs]
    rfl
  obtain ⟨t₁, hrun₁, hre₁⟩ := eachOk_of_total (I := h.Rewired)
    (p := fun item => linkMet d.op (h.node item.dstNode).inDataAnchors.length item) (f := handleEdge imp)
    (l := imp.nodeInputNodeNames)
    (fun item _ u hu => by
      obtain ⟨t, ht, hre⟩ := handleEdge_spec (hmap u hu) item
      rw [hu.node] at ht
      exact ⟨t, ht, Rewired.trans hu hre⟩) (Rewired.refl h)
  obtain ⟨t₂, hrun₂, hre₂⟩ := eachOk_of_total (I := h.Rewired)
    (p := fun item : NodeNameGraphReq => (imp.nodeMap.find item.nodeName).isSome) (f := handleInput imp)
    (l := imp.graphInputNodeNames)
    (fun item hitem u hu => by
      rw [hask.inputs] at hitem
      obtain ⟨e, -, rfl⟩ := List.mem_map.mp hitem
      obtain ⟨t, ht, hre⟩ := handleInput_spec imp { nodeName := e.1, index := e.2, graph := g } (hnodes u hu e.1)
      exact ⟨t, ht, Rewired.trans hu hre⟩) hre₁
  obtain ⟨t₃, hrun₃, hre₃⟩ := eachOk_of_total (I := h.Rewired)
    (p := fun item : NodeNameGraphReq => (imp.nodeMap.find item.nodeName).isSome) (f := handleOutput imp)
    (l := imp.graphOutputNodeNames)
    (fun item hitem u hu => by
      rw [hask.outputs] at hitem
      obtain ⟨e, -, rfl⟩ := List.mem_map.mp hitem
      obtain ⟨t, ht, hre⟩ := handleOutput_spec imp { nodeName := e.1, index := e.2, graph := g } (hnodes u hu e.1)
      exact ⟨t, ht, Rewired.trans hu hre⟩) hre₂
  rw [hlinks] at hrun₁
  rw [hask.inputs, hends] at hrun₂
  rw [hask.outputs, hends] at hrun₃
  unfold handleNodeNameRef met
  rw [bind_of_eq hrun₁]
  cases (d.op.all fun o => (readInputs 0 o.name o.input 0).all (linkMet d.op o.inputDesc.length)) with
  | false => exact ⟨t₁, rfl, hre₁⟩
  | true =>
    rw [hask.inputs, if_neg (by simp), bind_of_eq hrun₂]
    cases endsMet d.op d.input with
    | false => exact ⟨t₂, rfl, hre₂⟩
    | true =>
      rw [if_neg (by simp), hask.outputs, hrun₃]
      exact ⟨t₃, by simp, hre₃⟩

end LoadingAux

end Metadef
