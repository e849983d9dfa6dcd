import Metadef.Lemmas.NodeIndex
import Metadef.Lemmas.SubgraphSlots
import Metadef.Theorems.LinkSymmetry
import Metadef.Theorems.LoadEnds

/-!
# What is saved and can be loaded

A model that is saved is loaded again with the names that were registered exactly when the links, inputs and outputs of its graphs
are of nodes that are still there, and the names its nodes are read back with lead to the registered graphs and to nothing else.
-/

namespace Metadef

open List Option GraphSteps

open Relation

namespace Heap

variable (h : Heap)

/-- Indices are of 32 bits: those of anchors, and those of the outputs of the graphs of a model. -/
structure Indices32 (root : GraphId) : Prop where
  anchor : ∀ a < h.anchorCount, -(2 ^ 31) ≤ (h.anchor a).idx ∧ (h.anchor a).idx < 2 ^ 31
  output : ∀ g ∈ root :: (h.graph root).subGraph, ∀ e ∈ (h.graph g).outputNodesInfo, -(2 ^ 31) ≤ e.2 ∧ e.2 < 2 ^ 31

/-- A graph has a node of a name. -/
def HasNamed (g : GraphId) (name : String) : Prop := ∃ m ∈ (h.graph g).nodes, Node.getName h m = name

/-- The links, inputs and outputs of a graph are of nodes whose names it has, and their indices are of descriptors: that of a link's
source counts for the last node of its name. -/
structure Loadable (g : GraphId) : Prop where
  sources : ∀ n ∈ (h.graph g).nodes, ∀ (i : Nat) a p, (h.node n).inDataAnchors[i]? = some a →
    InDataAnchor.getPeerOutAnchor h a = some p →
    ∃ m, lastNamed (Node.getName h) (h.graph g).nodes (Node.getName h (h.owner p)) = some m ∧
      (h.anchor p).idx < (h.desc m).outputsDesc.length ∧ i < (h.desc n).inputsDesc.length
  controls : ∀ n ∈ (h.graph g).nodes, ∀ p ∈ InControlAnchor.getPeerOutControlAnchors h (h.node n).inControlAnchor,
    h.HasNamed g (Node.getName h (h.owner p))
  inputs : ∀ n ∈ (h.graph g).inputNodes, h.HasNamed g (Node.getName h n)
  outputs : ∀ e ∈ (h.graph g).outputNodesInfo, h.HasNamed g (Node.getName h e.1)

/-- The instance names the nodes of a graph are read back with. -/
def namesRestored (g : GraphId) : List String :=
  (h.graph g).nodes.flatMap fun n => SlotAux.restored ((h.desc n).opDef.subgraphName ++ (h.desc n).subgraphInstanceNames)

/-- The graphs the names of a graph lead to among those registered at the root, by the names they have themselves. -/
def graphsNamed (root g : GraphId) : Option (List GraphId) :=
  (h.namesRestored g).mapM (lastNamed (fun x => (h.graph x).name) (h.graph root).subGraph)

/-- A model that can be loaded once it is saved. Every name read back in a graph that is reached from the root leads to a graph, none
of these is nested below itself, and the names read back in them are those registered. -/
structure Reloadable (root : GraphId) : Prop where
  graphs : ∀ g ∈ root :: (h.graph root).subGraph, h.Loadable g
  found : ∀ g, Worklist.Reaches (h.graphsNamed root) root g → h.graphsNamed root g ≠ none
  ends : ∀ g, Worklist.Reaches (h.graphsNamed root) root g →
    ¬ TransGen (fun x y => Worklist.Child (h.graphsNamed root) y x) g g
  names : ∀ s, (∃ g, Worklist.Reaches (h.graphsNamed root) root g ∧ s ∈ h.namesRestored g) ↔
    (h.graph root).namesToSubgraph.contains s = true

end Heap

namespace ModelSerializeImp

/-- A model saved from a heap is loaded, wherever, with the names that were registered at the root. -/
def LoadsBack (h : Heap) (root : GraphId) (m : ModelDef) : Prop :=
  ∀ u : Heap, ∃ fuel g t, load fuel m u = some ((true, some g), t) ∧
    ∀ s, (t.graph g).namesToSubgraph.contains s = (h.graph root).namesToSubgraph.contains s

end ModelSerializeImp

namespace SavedLoadsAux

open ModelSerializeImp LoadingAux RebuildingAux LoadEndsAux NodeIndexAux PartialMaps Worklist

variable {h u t : Heap} {root g : GraphId} {n : NodeId} {a p : AnchorId} {l ops : List OpDef} {d : GraphDef} {o : OpDef}
  {s : String}

/-! ## Lists of messages -/

variable {α : Type} {P : NodeNameNodeReq → Bool} {name : String} {l : List AnchorId}

/-- Lists alike, and of the same names, have the same last item of a name. -/
theorem lastNamed_rel {β : Type} {r : α → β → Prop} {name : α → String} {name' : β → String} {l : List α} {l' : List β}
    (hl : List.Forall₂ r l l') (hname : ∀ x y, r x y → name x = name' y) (s : String) :
    Option.Rel r (lastNamed name l s) (lastNamed name' l' s) := by
  have hrev := forall₂_reverse_iff.mpr hl
  unfold lastNamed
  revert hrev
  generalize l.reverse = k
  generalize l'.reverse = k'
  intro hk
  induction hk with
  | nil => exact .none
  | @cons x y k k' hxy _ ih =>
    rw [find?_cons, find?_cons, hname x y hxy]
    by_cases hs : name' y = s
    · simp only [hs, decide_true]
      exact .some hxy
    · simp only [hs, decide_false]
      exact ih

/-! ## What the messages say -/

/-- The message of a node has its name and its descriptors, and the names it is read back with. -/
theorem serializeNode_spec (hn : serializeNode h n = some o) : o.name = Node.getName h n ∧
    o.inputDesc = (h.desc n).inputsDesc ∧ o.outputDesc = (h.desc n).outputsDesc ∧
    (unserializeOpDesc o).subgraphInstanceNames =
      SlotAux.restored ((h.desc n).opDef.subgraphName ++ (h.desc n).subgraphInstanceNames) ∧
    o.input = (h.node n).inDataAnchors.map (fun a => match InDataAnchor.getPeerOutAnchor h a with
        | some peer => Node.getName h (h.owner peer) ++ ":" ++ toString (h.anchor peer).idx
        | none => "") ++
      (InControlAnchor.getPeerOutControlAnchors h (h.node n).inControlAnchor).map fun peer => Node.getName h (h.owner peer) ++
        ":-1" := by
  obtain ⟨d, hd, rfl⟩ := map_eq_some_iff.mp hn
  obtain ⟨hnames, hle⟩ := SlotAux.serializeOpDesc_subgraphName hd
  have hslots : (unserializeOpDesc (serializeEdge h n d)).subgraphInstanceNames = SlotAux.restored d.subgraphName :=
    SlotAux.unserializeOpDesc_slots (d := serializeEdge h n d) (by
      show d.subgraphName.length ≤ 2 ^ 32
      unfold repeatedFieldMax at hle
      omega)
  have hdescs : d.name = (h.desc n).opDef.name ∧ d.inputDesc = (h.desc n).inputsDesc ∧ d.outputDesc = (h.desc n).outputsDesc := by
    unfold serializeOpDesc at hd
    dsimp only at hd
    split at hd
    · cases hd
    · rw [← Option.some.inj hd]
      simp only [opDescToAttrDef]
      repeat' split
      all_goals exact ⟨rfl, rfl, rfl⟩
  exact ⟨hdescs.1, hdescs.2.1, hdescs.2.2, by rw [hslots, hnames], rfl⟩

/-- The links the data inputs of a node ask for: each with its source, numbered by position. -/
theorem readInputs_data {rest : List String}
    (hidx : ∀ a ∈ l, ∀ p, InDataAnchor.getPeerOutAnchor h a = some p → 0 ≤ (h.anchor p).idx ∧ (h.anchor p).idx < 2 ^ 31) :
    ∀ k, (readInputs n name (l.map (fun a => match InDataAnchor.getPeerOutAnchor h a with
        | some peer => Node.getName h (h.owner peer) ++ ":" ++ toString (h.anchor peer).idx
        | none => "") ++ rest) k).all P = true ↔
      (∀ (i : Nat) a p, l[i]? = some a → InDataAnchor.getPeerOutAnchor h a = some p →
        P { srcNodeName := Node.getName h (h.owner p), srcOutIndex := (h.anchor p).idx, dstNode := n, dstInIndex := k + i
            dstNodeName := name } = true) ∧ (readInputs n name rest (k + l.length)).all P = true := by
  induction l with
  | nil => simp
  | cons a l ih =>
    intro k
    have ih' := ih (fun b hb => hidx b (mem_cons_of_mem a hb)) (k + 1)
    have hlen : k + 1 + l.length = k + (a :: l).length := by
      rw [length_cons]
      omega
    rw [hlen] at ih'
    rw [map_cons, cons_append, readInputs]
    -- an input of the node is the first or one of the others
    have hsplit : ∀ Q : Nat → AnchorId → Prop, (∀ (i : Nat) b, (a :: l)[i]? = some b → Q (k + i) b) ↔
        Q k a ∧ ∀ (i : Nat) b, l[i]? = some b → Q (k + 1 + i) b := by
      intro Q
      constructor
      · intro hall
        refine ⟨hall 0 a rfl, fun i b hb => ?_⟩
        have hi := hall (i + 1) b (by simpa using hb)
        rwa [show k + (i + 1) = k + 1 + i by omega] at hi
      · rintro ⟨ha, hl⟩ i b hb
        cases i with
        | zero =>
          obtain rfl : a = b := by simpa using hb
          exact ha
        | succ i =>
          have hi := hl i b (by simpa using hb)
          rwa [show k + 1 + i = k + (i + 1) by omega] at hi
    have hall := hsplit fun i b => ∀ p, InDataAnchor.getPeerOutAnchor h b = some p →
      P { srcNodeName := Node.getName h (h.owner p), srcOutIndex := (h.anchor p).idx, dstNode := n, dstInIndex := i
          dstNodeName := name } = true
    have hcomm : ∀ {Q : Nat → AnchorId → AnchorId → Prop} {l : List AnchorId},
        (∀ (i : Nat) a p, l[i]? = some a → InDataAnchor.getPeerOutAnchor h a = some p → Q i a p) ↔
          ∀ (i : Nat) a, l[i]? = some a → ∀ p, InDataAnchor.getPeerOutAnchor h a = some p → Q i a p :=
      ⟨fun hq i a hi p => hq i a p hi, fun hq i a p hi => hq i a hi p⟩
    rw [hcomm] at ih' ⊢
    rw [hall, and_assoc, ← ih']
    cases hp : InDataAnchor.getPeerOutAnchor h a with
    | none =>
      dsimp only
      rw [parseNodeIndex_empty]
      simp
    | some p =>
      obtain ⟨hlo, hhi⟩ := hidx a mem_cons_self p hp
      dsimp only
      rw [parseNodeIndex_write _ (by omega) hhi]
      dsimp only
      rw [if_pos hlo, all_cons, Bool.and_eq_true]
      simp

/-- The control links a node asks for. -/
theorem readInputs_control : ∀ k, (readInputs n name (l.map fun peer => Node.getName h (h.owner peer) ++ ":-1") k).all P = true ↔
      ∀ p ∈ l, P { srcNodeName := Node.getName h (h.owner p), srcOutIndex := -1, dstNode := n, dstInIndex := k
                   dstNodeName := name } = true := by
  induction l with
  | nil => simp [readInputs]
  | cons p l ih =>
    intro k
    have hparse : parseNodeIndex (Node.getName h (h.owner p) ++ ":-1") = some (Node.getName h (h.owner p), -1) := by
      have hwrite := parseNodeIndex_write (i := -1) (Node.getName h (h.owner p)) (by decide) (by decide)
      rwa [String.append_assoc] at hwrite
    rw [map_cons, readInputs, hparse]
    dsimp only
    rw [if_neg (by decide), all_cons, Bool.and_eq_true, ih]
    simp

theorem linkMet_iff {inputs : Nat} {item : NodeNameNodeReq} : linkMet ops inputs item = true ↔
    ∃ src, lastNamed OpDef.name ops item.srcNodeName = some src ∧
      (0 ≤ item.srcOutIndex → item.srcOutIndex < src.outputDesc.length ∧ item.dstInIndex < inputs) := by
  unfold linkMet
  cases lastNamed OpDef.name ops item.srcNodeName with
  | none => simp
  | some src =>
    by_cases hidx : 0 ≤ item.srcOutIndex
    · simp [hidx, Int.not_lt.mpr hidx]
    · simp [hidx, Int.lt_of_not_ge hidx]

theorem hasNamed_iff {nodes : List NodeId} : (lastNamed (Node.getName h) nodes s).isSome ↔ ∃ m ∈ nodes, Node.getName h m = s := by
  unfold lastNamed
  rw [find?_isSome]
  simp

/-- The ends a graph is written with are met when the graph has their nodes. -/
theorem endsMet_iff (ends : List α) (node : α → NodeId) (idx : α → Int) (hidx : ∀ e ∈ ends, -(2 ^ 31) ≤ idx e ∧ idx e < 2 ^ 31)
    (hops : ∀ s, (lastNamed OpDef.name ops s).isSome ↔ h.HasNamed g s) :
    endsMet ops (ends.map fun e => Node.getName h (node e) ++ ":" ++ toString (idx e)) = true ↔
      ∀ e ∈ ends, h.HasNamed g (Node.getName h (node e)) := by
  have hparse : (ends.map fun e => Node.getName h (node e) ++ ":" ++ toString (idx e)).filterMap parseNodeIndex =
      ends.map fun e => (Node.getName h (node e), idx e) := by
    rw [filterMap_map]
    calc ends.filterMap (parseNodeIndex ∘ fun e => Node.getName h (node e) ++ ":" ++ toString (idx e))
        = ends.filterMap (some ∘ fun e => (Node.getName h (node e), idx e)) :=
          filterMap_congr fun e he => parseNodeIndex_write _ (hidx e he).1 (hidx e he).2
      _ = ends.map fun e => (Node.getName h (node e), idx e) := by rw [filterMap_eq_map]
  unfold endsMet
  rw [hparse, List.all_map, List.all_eq_true]
  exact forall_congr' fun e => imp_congr_right fun _ => hops _

/-- What the message of a graph asks for can be met when the graph can be loaded. -/
theorem met_iff (hs : h.Sound) (hidx : h.Indices32 root) (hg : g ∈ root :: (h.graph root).subGraph)
    (hd : serializeGraph h g = some d) : met d = true ↔ h.Loadable g := by
  obtain ⟨ops, hops, hd⟩ := bind_eq_some_iff.mp hd
  obtain rfl := Option.some.inj hd
  have hnodes := forall₂_of_mapM hops
  have hlast : ∀ s, Option.Rel (fun n o => serializeNode h n = some o) (lastNamed (Node.getName h) (h.graph g).nodes s)
      (lastNamed OpDef.name ops s) :=
    lastNamed_rel hnodes fun n o hn => (serializeNode_spec hn).1.symm
  have hnamed : ∀ s, (lastNamed OpDef.name ops s).isSome ↔ h.HasNamed g s := by
    intro s
    unfold Heap.HasNamed
    rw [← hasNamed_iff]
    have hs := hlast s
    revert hs
    generalize lastNamed (Node.getName h) (h.graph g).nodes s = x
    generalize lastNamed OpDef.name ops s = y
    rintro (- | -) <;> rfl
  -- the peers of data inputs are data outputs with their position
  have hpeer : ∀ a p, InDataAnchor.getPeerOutAnchor h a = some p → 0 ≤ (h.anchor p).idx ∧ (h.anchor p).idx < 2 ^ 31 := by
    intro a p hp
    unfold InDataAnchor.getPeerOutAnchor at hp
    split at hp
    · cases hp
    · rename_i b l hb
      split at hp
      · rename_i hk
        obtain rfl : b = p := Option.some.inj hp
        obtain ⟨hn, hmem⟩ := hs.peersHeld a b (by rw [hb]; exact mem_cons_self)
        obtain ⟨i, hi⟩ := getElem?_of_mem hmem
        refine ⟨?_, (hidx.anchor b (hs.laid.made _ hn _ b hmem)).2⟩
        rw [hs.laid.idx _ hn _ (by rw [hk]; rfl) i b hi]
        exact Int.natCast_nonneg i
      · cases hp
  have hlinks : ∀ n o, serializeNode h n = some o →
      ((readInputs 0 o.name o.input 0).all (linkMet ops o.inputDesc.length) = true ↔
        (∀ (i : Nat) a p, (h.node n).inDataAnchors[i]? = some a → InDataAnchor.getPeerOutAnchor h a = some p →
          ∃ m, lastNamed (Node.getName h) (h.graph g).nodes (Node.getName h (h.owner p)) = some m ∧
            (h.anchor p).idx < (h.desc m).outputsDesc.length ∧ i < (h.desc n).inputsDesc.length) ∧
        ∀ p ∈ InControlAnchor.getPeerOutControlAnchors h (h.node n).inControlAnchor, h.HasNamed g
          (Node.getName h (h.owner p))) := by
    intro n o hn
    obtain ⟨-, hin, -, -, hinput⟩ := serializeNode_spec hn
    rw [hinput, readInputs_data fun a _ p hp => hpeer a p hp, readInputs_control]
    refine and_congr ?_ ?_
    · refine forall_congr' fun i => forall_congr' fun a => forall_congr' fun p => imp_congr_right fun _ =>
        imp_congr_right fun hp => ?_
      rw [linkMet_iff]
      dsimp only
      have hl := hlast (Node.getName h (h.owner p))
      revert hl
      generalize lastNamed (Node.getName h) (h.graph g).nodes (Node.getName h (h.owner p)) = x
      generalize lastNamed OpDef.name ops (Node.getName h (h.owner p)) = y
      rintro (hm | -)
      · obtain ⟨-, -, hout, -⟩ := serializeNode_spec hm
        simp [(hpeer a p hp).1, hout, hin]
      · simp
    · refine forall_congr' fun p => imp_congr_right fun _ => ?_
      rw [linkMet_iff, ← hnamed, isSome_iff_exists]
      simp
  have hall : (ops.all fun o => (readInputs 0 o.name o.input 0).all (linkMet ops o.inputDesc.length)) = true ↔
      ∀ n ∈ (h.graph g).nodes, ∀ o, serializeNode h n = some o →
        (readInputs 0 o.name o.input 0).all (linkMet ops o.inputDesc.length) = true := by
    clear hlast hnamed hlinks hops
    rw [List.all_eq_true]
    constructor
    · intro hall n hn o ho
      obtain ⟨i, hi, rfl⟩ := mem_iff_getElem.mp hn
      have hi' : i < ops.length := hnodes.length_eq ▸ hi
      obtain rfl : ops[i] = o := Option.some.inj ((hnodes.get hi hi').symm.trans ho)
      exact hall _ (getElem_mem hi')
    · intro hall o ho
      obtain ⟨i, hi, rfl⟩ := mem_iff_getElem.mp ho
      have hi' : i < (h.graph g).nodes.length := hnodes.length_eq ▸ hi
      exact hall _ (getElem_mem hi') _ (hnodes.get hi' hi)
  have hwritten : ∀ n ∈ (h.graph g).nodes, ∃ o, serializeNode h n = some o := by
    intro n hn
    obtain ⟨i, hi, rfl⟩ := mem_iff_getElem.mp hn
    exact ⟨_, hnodes.get hi (hnodes.length_eq ▸ hi)⟩
  have hinputs := endsMet_iff (h.graph g).inputNodes id (fun _ => 0) (by simp) hnamed
  have houtputs := endsMet_iff (h.graph g).outputNodesInfo Prod.fst Prod.snd (hidx.output g hg) hnamed
  have hzero : (h.graph g).inputNodes.map (fun n => Node.getName h n ++ ":0") =
      (h.graph g).inputNodes.map fun n => Node.getName h (id n) ++ ":" ++ toString (0 : Int) := by
    refine map_congr_left fun n _ => ?_
    rw [String.append_assoc]
    rfl
  unfold met
  rw [Bool.and_eq_true, Bool.and_eq_true, hall, hzero, hinputs, houtputs]
  constructor
  · rintro ⟨⟨hl, hi⟩, ho⟩
    refine ⟨fun n hn => ?_, fun n hn => ?_, hi, ho⟩
    · obtain ⟨o, hno⟩ := hwritten n hn
      exact ((hlinks n o hno).mp (hl n hn o hno)).1
    · obtain ⟨o, hno⟩ := hwritten n hn
      exact ((hlinks n o hno).mp (hl n hn o hno)).2
  · rintro ⟨hsrc, hctl, hi, ho⟩
    exact ⟨⟨fun n hn o hno => (hlinks n o hno).mpr ⟨hsrc n hn, hctl n hn⟩, hi⟩, ho⟩

/-! ## Nesting -/

theorem namesAsked_eq (hd : serializeGraph h g = some d) : namesAsked d = h.namesRestored g := by
  obtain ⟨ops, hops, he⟩ := bind_eq_some_iff.mp hd
  obtain rfl := Option.some.inj he
  have hnodes := forall₂_of_mapM hops
  unfold namesAsked Heap.namesRestored
  dsimp only
  generalize (h.graph g).nodes = nodes at hnodes
  clear hops hd he
  induction hnodes with
  | nil => rfl
  | cons hn _ ih => rw [flatMap_cons, flatMap_cons, (serializeNode_spec hn).2.2.2.1, ih]

/-- The graphs of a saved model and their messages lead to graphs and messages alike. -/
theorem graphsNamed_sim {l : List GraphDef} (hl : List.Forall₂ (fun x d => serializeGraph h x = some d) (h.graph root).subGraph l)
    (x : GraphId) (d : GraphDef) (hd : serializeGraph h x = some d) :
    Option.Rel (List.Forall₂ fun x d => serializeGraph h x = some d) (h.graphsNamed root x) (kids l d) := by
  unfold Heap.graphsNamed kids
  rw [namesAsked_eq hd]
  refine mapM_rel (fun s => lastNamed_rel hl (fun y e he => ?_) s) _
  obtain ⟨ops, -, he⟩ := bind_eq_some_iff.mp he
  rw [← Option.some.inj he]

theorem registered_of_child {x y : GraphId} (hc : Child (h.graphsNamed root) y x) : y ∈ (h.graph root).subGraph := by
  obtain ⟨found, hk, hy⟩ := hc
  obtain ⟨s, -, hs⟩ := (mem_mapM hk y).mp hy
  exact (name_of_lastNamed hs).1

/-! ## Loading what was saved -/

/-- Loading succeeds when all that is asked for is met and the nesting comes to a good end, and then the names reached are
registered. -/
theorem loads_iff (l : List GraphDef) (d : GraphDef) (u : Heap) (names : String → Bool) :
    (∃ fuel g t, load fuel { graph := d :: l } u = some ((true, some g), t) ∧
        ∀ s, (t.graph g).namesToSubgraph.contains s = names s) ↔
      l.all met = true ∧ met d = true ∧ (∃ fuel, drain (kids l) fuel [d] = some true) ∧
        ∀ s, namesReached l [d] s ↔ names s = true := by
  have hload : ∀ fuel g t, load fuel { graph := d :: l } u = some ((true, some g), t) ↔
      unserializeModel fuel { graph := d :: l } u = some ((true, some g), t) := by
    intro fuel g t
    unfold load
    rw [Cmd.bind_eq_some]
    constructor
    · rintro ⟨⟨ok, r⟩, v, hv, hrest⟩
      obtain ⟨⟨hok, rfl⟩, rfl⟩ : ((ok = true ∧ r.isSome = true) ∧ r = some g) ∧ v = t := by simpa [and_assoc] using hrest
      rw [hv, hok.1]
    · exact fun hr => ⟨(true, some g), t, hr, rfl⟩
  constructor
  · rintro ⟨fuel, g, t, hr, hnames⟩
    rw [hload] at hr
    obtain ⟨hstatus, hafter⟩ := unserializeModel_spec fuel d l u
    obtain ⟨hg, -, hkeys⟩ := hafter _ t hr
    obtain rfl := Option.some.inj hg
    rw [hr] at hstatus
    split at hstatus
    · rename_i hmet
      obtain ⟨ok, hdrain, hok⟩ := map_eq_some_iff.mp hstatus.symm
      obtain ⟨rfl, hroot⟩ : ok = true ∧ met d = true := by simpa using hok
      refine ⟨hmet, hroot, ⟨fuel, hdrain⟩, fun s => ?_⟩
      rw [← hkeys, hnames]
    · cases hstatus
  · rintro ⟨hmet, hroot, ⟨fuel, hdrain⟩, hnames⟩
    obtain ⟨hstatus, hafter⟩ := unserializeModel_spec fuel d l u
    rw [if_pos hmet, hdrain] at hstatus
    obtain ⟨⟨⟨ok, g⟩, t⟩, hr, hok⟩ := map_eq_some_iff.mp hstatus
    obtain rfl : ok = true := by simpa [hroot] using hok
    obtain ⟨rfl, -, hkeys⟩ := hafter g t hr
    refine ⟨fuel, u.graphCount, t, (hload _ _ _).mpr hr, fun s => ?_⟩
    rw [Bool.eq_iff_iff, hkeys, hnames]

/-- A saved model is loaded back exactly when its state allows. -/
theorem loadsBack_iff {m : ModelDef} (hs : h.Sound) (hidx : h.Indices32 root) (hm : serializeModel h root = some m) :
    LoadsBack h root m ↔ h.Reloadable root := by
  obtain ⟨d, hd, hm⟩ := bind_eq_some_iff.mp hm
  obtain ⟨l, hl, hm⟩ := bind_eq_some_iff.mp hm
  obtain rfl := Option.some.inj hm
  have hsubs := forall₂_of_mapM hl
  have hsim := graphsNamed_sim hsubs
  have hsim' : ∀ d x, serializeGraph h x = some d →
      Option.Rel (List.Forall₂ fun d x => serializeGraph h x = some d) (kids l d) (h.graphsNamed root x) := by
    intro d x hx
    have hrel := hsim x d hx
    revert hrel
    generalize h.graphsNamed root x = a
    generalize kids l d = b
    rintro (hab | -)
    · exact .some hab.flip
    · exact .none
  have hmets : (l.all met = true ∧ met d = true) ↔ ∀ g ∈ root :: (h.graph root).subGraph, h.Loadable g := by
    rw [forall_mem_cons, and_comm, met_iff hs hidx mem_cons_self hd, List.all_eq_true]
    refine and_congr_right fun _ => ⟨fun hall g hg => ?_, fun hall e he => ?_⟩
    · obtain ⟨i, hi, rfl⟩ := mem_iff_getElem.mp hg
      have hi' : i < l.length := hsubs.length_eq ▸ hi
      exact (met_iff hs hidx (mem_cons_of_mem root hg) (hsubs.get hi hi')).mp (hall _ (getElem_mem hi'))
    · obtain ⟨i, hi, rfl⟩ := mem_iff_getElem.mp he
      have hi' : i < (h.graph root).subGraph.length := hsubs.length_eq ▸ hi
      exact (met_iff hs hidx (mem_cons_of_mem root (getElem_mem hi')) (hsubs.get hi' hi)).mpr
        (hall _ (getElem_mem hi'))
  have hdrain : (∃ fuel, drain (kids l) fuel [d] = some true) ↔
      (∀ g, Reaches (h.graphsNamed root) root g → h.graphsNamed root g ≠ none) ∧
        ∀ g, Reaches (h.graphsNamed root) root g → ¬ TransGen (fun x y => Child (h.graphsNamed root) y x) g g := by
    have hsame : ∀ fuel, drain (kids l) fuel [d] = drain (h.graphsNamed root) fuel [root] :=
      fun fuel => (drain_sim hsim fuel (.cons hd .nil)).symm
    simp only [hsame]
    rw [drain_true_iff]
    simp only [mem_singleton, forall_eq]
    rw [acc_iff_no_cycle (h.graph root).subGraph fun _ _ hc => registered_of_child hc, and_comm]
  have hnames : ∀ s, namesReached l [d] s ↔ ∃ g, Reaches (h.graphsNamed root) root g ∧ s ∈ h.namesRestored g := by
    intro s
    constructor
    · rintro ⟨x, hx, y, hy, hsy⟩
      obtain rfl := mem_singleton.mp hx
      obtain ⟨g, hg, hreach⟩ := reaches_sim hsim' hd hy
      exact ⟨g, hreach, namesAsked_eq hg ▸ hsy⟩
    · rintro ⟨g, hg, hsg⟩
      obtain ⟨y, hy, hreach⟩ := reaches_sim hsim hd hg
      exact ⟨d, mem_cons_self, y, hreach, (namesAsked_eq hy).symm ▸ hsg⟩
  have hback : LoadsBack h root { graph := d :: l } ↔ l.all met = true ∧ met d = true ∧
      (∃ fuel, drain (kids l) fuel [d] = some true) ∧
      ∀ s, namesReached l [d] s ↔ (h.graph root).namesToSubgraph.contains s = true :=
    ⟨fun hb => (loads_iff l d .empty _).mp (hb .empty), fun hc u => (loads_iff l d u _).mpr hc⟩
  rw [hback, ← and_assoc, hmets, hdrain]
  simp only [hnames]
  exact ⟨fun ⟨h1, ⟨h2, h3⟩, h4⟩ => ⟨h1, h2, h3, h4⟩, fun hr => ⟨hr.graphs, ⟨hr.found, hr.ends⟩, hr.names⟩⟩

end SavedLoadsAux

open SavedLoadsAux

open ModelSerializeImp

/-- A model that is saved is loaded back exactly when its state allows: its graphs can be loaded, and the names its nodes are read back
with are those of the registered graphs. -/
theorem loadsBack_iff_reloadable (h : Heap) (root : GraphId) (m : ModelDef) (hs : h.Sound) (hidx : h.Indices32 root)
    (hm : serializeModel h root = some m) : LoadsBack h root m ↔ h.Reloadable root :=
  loadsBack_iff hs hidx hm

namespace SavedLoadsWitness

/-- A node that feeds one with a subgraph, and the node of the subgraph. -/
def linking : List LinkCall :=
  [.newOp { opDef := { name := "x", type := "Data" }, outputsDesc := [{}] }, .newNode 0,
    .newOp { opDef := { name := "a", type := "If" }, inputsDesc := [{}], outputsDesc := [{}], subgraphInstanceNames := ["s"] },
    .newNode 1, .newOp { opDef := { name := "b", type := "Relu" } }, .newNode 2, .addDataEdge (some 2) (some 5)]

/-- The feeding node and the other in graph 0, the third in graph 1. -/
def listed : Heap := GraphSteps.addAll 1 (GraphSteps.addAll 0 ((LinkCall.runAll linking).getD .empty) [0, 1]) [2]

/-- The subgraph is registered under its name, and the root has an input and an output. -/
def running : Heap :=
  (listed.setGraph 1 { listed.graph 1 with name := "s" }).setGraph 0
    { listed.graph 0 with inputNodes := [0], outputNodesInfo := [(1, 0)], subGraph := [1], namesToSubgraph := [("s", 1)] }

theorem sound_running : running.Sound :=
  sound_setGraph (sound_setGraph (sound_addAll 1 [2]
    (sound_addAll 0 [0, 1] (sound_runAll linking _ (by decide +kernel) rfl))) 1 _) 0 _

theorem indices_running : running.Indices32 0 := by
  have hcount : running.anchorCount = 9 := by decide +kernel
  have hall : ∀ a < 9, -(2 ^ 31) ≤ (running.anchor a).idx ∧ (running.anchor a).idx < 2 ^ 31 := by decide +kernel
  exact ⟨fun a ha => hall a (hcount ▸ ha), by decide +kernel⟩

theorem reloadable_running : running.Reloadable 0 := by
  have hroot : running.graphsNamed 0 0 = some [1] := by decide +kernel
  have hsub : running.graphsNamed 0 1 = some [] := by decide +kernel
  have hreached : ∀ g, Worklist.Reaches (running.graphsNamed 0) 0 g → g = 0 ∨ g = 1 := by
    intro g hg
    rcases hg.cases_tail with hg | ⟨y, -, hy⟩
    · exact .inl hg
    · exact .inr (mem_singleton.mp (registered_of_child hy))
  have hnone : ∀ y, ¬ Worklist.Child (running.graphsNamed 0) y 1 := by
    rintro y ⟨l, hl, hy⟩
    rw [hsub] at hl
    rw [← Option.some.inj hl] at hy
    cases hy
  have hone : Worklist.Reaches (running.graphsNamed 0) 0 1 := .single ⟨[1], hroot, mem_cons_self⟩
  refine ⟨fun g hg => ?_, fun g hg => ?_, fun g _ hcycle => ?_, fun s => ?_⟩
  · have hmet : ∀ g ∈ [0, 1], ((serializeGraph running g).map met) = some true := by decide +kernel
    obtain ⟨d, hd, hok⟩ := map_eq_some_iff.mp (hmet g hg)
    exact (met_iff sound_running indices_running hg hd).mp hok
  · rcases hreached g hg with rfl | rfl
    · simp [hroot]
    · simp [hsub]
  · obtain ⟨y, hstep, hback⟩ := TransGen.head'_iff.mp hcycle
    obtain rfl : y = 1 := mem_singleton.mp (registered_of_child hstep)
    rcases hback.cases_head with rfl | ⟨z, hz, -⟩
    · exact hnone 1 hstep
    · exact hnone z hz
  · have hkeys : (running.graph 0).namesToSubgraph.contains s = true ↔ s = "s" := by
      have hreg : (running.graph 0).namesToSubgraph = [("s", 1)] := by decide +kernel
      rw [hreg]
      simp [OrderedMap.contains, eq_comm]
    have hnames : running.namesRestored 0 = ["s"] ∧ running.namesRestored 1 = [] := by decide +kernel
    rw [hkeys]
    constructor
    · rintro ⟨g, hg, hs⟩
      rcases hreached g hg with rfl | rfl
      · rw [hnames.1] at hs
        exact mem_singleton.mp hs
      · rw [hnames.2] at hs
        cases hs
    · rintro rfl
      exact ⟨0, .refl, by rw [hnames.1]; exact mem_cons_self⟩

theorem loadsBack_running : ∃ m, serializeModel running 0 = some m ∧ LoadsBack running 0 m := by
  have hsome : (serializeModel running 0).isSome := by decide +kernel
  obtain ⟨m, hm⟩ := isSome_iff_exists.mp hsome
  exact ⟨m, hm, (loadsBack_iff_reloadable running 0 m sound_running indices_running hm).mpr reloadable_running⟩

/-- A node whose descriptor has a name for a subgraph and no instance name for it. -/
def branching : List LinkCall := [.newOp ((OpDesc.make "a" "If").addSubgraphName "then_branch").2, .newNode 0]

/-- The graph of that node. -/
def unset : Heap := GraphSteps.addAll 0 ((LinkCall.runAll branching).getD .empty) [0]

/-- A model with a node whose subgraph is not set is saved and is refused when it is loaded. -/
theorem saved_loads_false :
    ¬ ∀ (h : Heap) (root : GraphId) (m : ModelDef), h.Sound → h.Indices32 root → serializeModel h root = some m →
      LoadsBack h root m := by
  intro hall
  have hs : unset.Sound := sound_addAll 0 [0] (sound_runAll branching _ (by decide +kernel) rfl)
  have hidx : unset.Indices32 0 := by
    have hcount : unset.anchorCount = 2 := by decide +kernel
    have hall : ∀ a < 2, -(2 ^ 31) ≤ (unset.anchor a).idx ∧ (unset.anchor a).idx < 2 ^ 31 := by decide +kernel
    exact ⟨fun a ha => hall a (hcount ▸ ha), by decide +kernel⟩
  have hsome : (serializeModel unset 0).isSome := by decide +kernel
  obtain ⟨m, hm⟩ := isSome_iff_exists.mp hsome
  have hr := (loadsBack_iff hs hidx hm).mp (hall unset 0 m hs hidx hm)
  exact hr.found 0 .refl (by decide +kernel)

end SavedLoadsWitness

end Metadef
