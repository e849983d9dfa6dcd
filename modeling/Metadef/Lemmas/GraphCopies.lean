import Metadef.CopyGraph
import Metadef.Lemmas.CallSteps
import Metadef.Lemmas.DescriptorCopies

/-!
# What copying a graph of nodes leaves

Copying makes new objects. No descriptor made before loses an output or the name of one, every node keeps its descriptor, and
the copies of descriptors have the names and outputs of the originals.
-/

namespace Metadef

open AttrUtils ModelSerializeImp Heap

/-- The output names a copy of a descriptor goes by: those its attributes hold or else its own, then its own. -/
def OpDesc.copiedOutputNames (op : OpDesc) : OrderedMap String Nat :=
  insertRange (insertNames [] (op.opDef.outputNameKey.getD (op.outputNameIdx.map Prod.fst))
    (op.opDef.outputNameValue.getD (op.outputNameIdx.map Prod.snd))) op.outputNameIdx

/-- Two states of a descriptor between which its name and its outputs did not change. -/
structure OpDesc.SameOutputs (op op' : OpDesc) : Prop where
  name : op'.getName = op.getName
  outputsDesc : op'.outputsDesc = op.outputsDesc
  outputNameIdx : op'.outputNameIdx = op.outputNameIdx
  outputNameKey : op'.opDef.outputNameKey = op.opDef.outputNameKey
  outputNameValue : op'.opDef.outputNameValue = op.opDef.outputNameValue

/-- A descriptor with the name and the outputs of a copy. -/
structure OpDesc.IsCopy (op copy : OpDesc) : Prop where
  name : copy.getName = op.getName
  outputsDesc : copy.outputsDesc = op.outputsDesc
  outputNameIdx : copy.outputNameIdx = op.copiedOutputNames

/-- Objects are made, descriptors keep their outputs and nodes their descriptors. -/
structure Heap.OutputsKept (h t : Heap) : Prop where
  opCount : h.opCount ≤ t.opCount
  nodeCount : h.nodeCount ≤ t.nodeCount
  op : ∀ o < h.opCount, (h.op o).SameOutputs (t.op o)
  node : ∀ n < h.nodeCount, (t.node n).op = (h.node n).op

namespace CopiesAux

open Cmd GraphUtils

variable {h t u : Heap}

/-! ## Descriptors and heaps -/

theorem SameOutputs.refl (op : OpDesc) : op.SameOutputs op := ⟨rfl, rfl, rfl, rfl, rfl⟩

variable {x y op : OpDesc} {o : OpId} {n : NodeId} {α : Type} {c : Cmd Heap α} {h₀ : Heap}
  {copies : Copies} {dst : GraphId}

theorem SameOutputs.trans {z : OpDesc} (h₁ : x.SameOutputs y) (h₂ : y.SameOutputs z) : x.SameOutputs z :=
  ⟨h₂.name.trans h₁.name, h₂.outputsDesc.trans h₁.outputsDesc, h₂.outputNameIdx.trans h₁.outputNameIdx,
    h₂.outputNameKey.trans h₁.outputNameKey, h₂.outputNameValue.trans h₁.outputNameValue⟩

/-- A copy of a descriptor stays one while neither loses outputs. -/
theorem IsCopy.congr {x' y' : OpDesc} (hc : x.IsCopy y) (hx : x'.SameOutputs x) (hy : y.SameOutputs y') : x'.IsCopy y' where
  name := hy.name.trans (hc.name.trans hx.name)
  outputsDesc := hy.outputsDesc.trans (hc.outputsDesc.trans hx.outputsDesc)
  outputNameIdx := by
    rw [hy.outputNameIdx, hc.outputNameIdx, OpDesc.copiedOutputNames, hx.outputNameIdx, hx.outputNameKey,
      hx.outputNameValue, OpDesc.copiedOutputNames]

theorem OutputsKept.refl (h : Heap) : h.OutputsKept h :=
  ⟨Nat.le_refl _, Nat.le_refl _, fun _ _ => SameOutputs.refl _, fun _ _ => rfl⟩

theorem OutputsKept.trans (h₁ : h.OutputsKept t) (h₂ : t.OutputsKept u) : h.OutputsKept u where
  opCount := h₁.opCount.trans h₂.opCount
  nodeCount := h₁.nodeCount.trans h₂.nodeCount
  op o ho := SameOutputs.trans (h₁.op o ho) (h₂.op o (Nat.lt_of_lt_of_le ho h₁.opCount))
  node n hn := (h₂.node n (Nat.lt_of_lt_of_le hn h₁.nodeCount)).trans (h₁.node n hn)

/-- A descriptor that keeps its outputs may be written. -/
theorem OutputsKept.setOp (hx : (h.op o).SameOutputs x) : h.OutputsKept (h.setOp o x) := by
  refine ⟨Nat.le_refl _, Nat.le_refl _, fun p _ => ?_, fun _ _ => rfl⟩
  rw [setOp_op]
  split
  · rename_i hp
    exact hp ▸ hx
  · exact SameOutputs.refl _

theorem OutputsKept.setNode {x : Node} (hx : x.op = (h.node n).op) : h.OutputsKept (h.setNode n x) := by
  refine ⟨Nat.le_refl _, Nat.le_refl _, fun _ _ => SameOutputs.refl _, fun m _ => ?_⟩
  rw [setNode_node]
  split
  · rename_i hm
    rw [hm, hx]
  · rfl

theorem OutputsKept.makeOp (h : Heap) (op : OpDesc) : h.OutputsKept (LinkCall.makeOp op h) := by
  refine ⟨Nat.le_succ _, Nat.le_refl _, fun p hp => ?_, fun _ _ => rfl⟩
  rw [LinkCall.makeOp, setOp_op, if_neg (Nat.ne_of_lt hp)]
  exact SameOutputs.refl _

/-- Links and graphs may be written. -/
theorem OutputsKept.of_same (hc : t.opCount = h.opCount) (hn : t.nodeCount = h.nodeCount) (ho : t.op = h.op)
    (hd : t.node = h.node) : h.OutputsKept t :=
  ⟨Nat.le_of_eq hc.symm, Nat.le_of_eq hn.symm, fun _ _ => ho ▸ SameOutputs.refl _, fun _ _ => hd ▸ rfl⟩

/-! ## Commands -/

/-- A change that keeps outputs, as a command. -/
theorem keeps_modify (h₀ : Heap) {f : Heap → Heap} (hf : ∀ h : Heap, h.OutputsKept (f h)) :
    Keeps h₀.OutputsKept (modify f : Cmd Heap PUnit) := by
  intro s a t hs hr
  obtain ⟨-, rfl⟩ := of_return hr
  exact OutputsKept.trans hs (hf s)

/-- A command whose every outcome keeps outputs. -/
theorem keeps_of_outcome (h₀ : Heap) (hc : ∀ h a t, c h = some (a, t) → h.OutputsKept t) : Keeps h₀.OutputsKept c :=
  fun s a t hs hr => OutputsKept.trans hs (hc s a t hr)

/-- What is kept from any heap on is kept from the heap of the start. -/
theorem kept_of_keeps (hc : ∀ h₀ : Heap, Keeps h₀.OutputsKept c) {h t : Heap} {a : α} (hr : c h = some (a, t)) : h.OutputsKept t :=
  hc h h a t (OutputsKept.refl h) hr

theorem keeps_edit (h₀ : Heap) (g : GraphId) (f : ComputeGraph → ComputeGraph) : Keeps h₀.OutputsKept (ComputeGraph.edit g f) :=
  keeps_modify h₀ fun _ => OutputsKept.of_same rfl rfl rfl rfl

theorem keeps_addEdge (h₀ : Heap) (src dst : Option AnchorId) : Keeps h₀.OutputsKept (addEdge src dst) := by
  refine keeps_of_outcome h₀ fun h ok t hr => ?_
  rcases CallAux.addEdge_cases hr with ⟨-, rfl⟩ | ⟨-, a, d, -, -, -, -, -, rfl⟩
  · exact OutputsKept.refl _
  · exact OutputsKept.of_same rfl rfl rfl rfl

theorem keeps_makeGraph (h₀ : Heap) (name : String) : Keeps h₀.OutputsKept (makeGraph name) := by
  refine keeps_of_outcome h₀ fun h g t hr => ?_
  obtain ⟨-, rfl⟩ := of_return hr
  exact OutputsKept.of_same rfl rfl rfl rfl

theorem keeps_make (h₀ : Heap) (o : OpId) (g : Option GraphId) : Keeps h₀.OutputsKept (Node.make o g) := by
  refine keeps_of_outcome h₀ fun h n t hr => ?_
  obtain ⟨u, hu, hops, hnodes, -, hop, -, hnode, -⟩ := NewNodesAux.make_spec o g h
  obtain ⟨rfl, rfl⟩ : h.nodeCount = n ∧ u = t := by simpa using hu.symm.trans hr
  refine ⟨Nat.le_of_eq hops.symm, by omega, fun o _ => hop ▸ SameOutputs.refl _, fun n hn => by rw [hnode n hn]⟩

theorem keeps_addNode (h₀ : Heap) (g : GraphId) (node : Option NodeId) : Keeps h₀.OutputsKept (ComputeGraph.addNode g node) := by
  cases node with
  | none => exact Keeps.pure none
  | some n =>
    refine Keeps.bind (keeps_modify h₀ fun h => OutputsKept.setNode rfl) fun _ => ?_
    refine Keeps.bind (keeps_modify h₀ fun h => OutputsKept.setOp ⟨rfl, rfl, rfl, rfl, rfl⟩) fun _ => ?_
    exact Keeps.bind (keeps_modify h₀ fun _ => OutputsKept.of_same rfl rfl rfl rfl) fun _ => Keeps.pure _

theorem keeps_addOpNode (h₀ : Heap) (g : GraphId) (o : OpId) : Keeps h₀.OutputsKept (ComputeGraph.addOpNode g (some o)) := by
  refine Keeps.bind (keeps_modify h₀ fun h => OutputsKept.setOp ⟨rfl, rfl, rfl, rfl, rfl⟩) fun _ => ?_
  exact Keeps.bind (keeps_make h₀ o (some g)) fun n => keeps_addNode h₀ g (some n)

theorem keeps_addInputNode (h₀ : Heap) (g : GraphId) (n : NodeId) :
    Keeps h₀.OutputsKept (ComputeGraph.addInputNode g (some n)) := by
  refine Keeps.bind (keeps_edit h₀ g _) fun _ => Keeps.get fun h => ?_
  have hrest : Keeps h₀.OutputsKept (if n ∈ (h.graph g).nodes then return some n else do
      let _ ← ComputeGraph.addNode g (some n)
      return some n : Cmd Heap (Option NodeId)) :=
    Keeps.ite (fun _ => Keeps.pure _) fun _ => Keeps.bind (keeps_addNode h₀ g (some n)) fun _ => Keeps.pure _
  exact hrest.mono (fun _ ht => ht.2) fun _ _ ht => ht

/-- A node added over a descriptor is a new one over it. -/
theorem addOpNode_new {g : GraphId} {r : Option NodeId} (hr : ComputeGraph.addOpNode g (some o) h = some (r, t)) :
    r = some h.nodeCount ∧ h.nodeCount < t.nodeCount ∧ (t.node h.nodeCount).op = o := by
  obtain ⟨u, hu, -, hnodes, -, -, -, -, hop, -⟩ :=
    NewNodesAux.make_spec o (some g) (h.setOp o ((h.op o).setId (h.graph g).directNodesSize))
  have hcount : h.nodeCount < u.nodeCount := by
    rw [hnodes]
    exact Nat.lt_succ_self _
  rw [ComputeGraph.addOpNode] at hr
  simp only [modify_bind_apply] at hr
  rw [bind_of_eq hu] at hr
  simp only [ComputeGraph.addNode, modify_bind_apply, pure_apply, Option.some.injEq, Prod.mk.injEq] at hr
  obtain ⟨rfl, rfl⟩ := hr
  exact ⟨rfl, hcount, by simpa using hop⟩

/-! ## Copied descriptors -/

/-- The message written holds the outputs, and the output names its attributes held or else those of the descriptor. -/
theorem serializeOpDesc_outputs {d : OpDef} (h : serializeOpDesc op = some d) :
    d.outputDesc = op.outputsDesc ∧ d.outputNameKey.getD [] = op.opDef.outputNameKey.getD (op.outputNameIdx.map Prod.fst) ∧
      d.outputNameValue.getD [] = op.opDef.outputNameValue.getD (op.outputNameIdx.map Prod.snd) := by
  simp only [serializeOpDesc] at h
  split at h
  · cases h
  · rw [← Option.some.inj h]
    simp only [opDescToAttrDef]
    repeat' split
    all_goals simp_all [insertAttr]

/-- A copy of a descriptor has its name and outputs. -/
theorem copyDesc_isCopy {copy : OpDesc} (h : copyDesc op = some copy) : op.IsCopy copy := by
  obtain ⟨c, hc, rfl⟩ := Option.map_eq_some_iff.mp h
  obtain ⟨d, hser, rfl⟩ := Option.map_eq_some_iff.mp hc
  obtain ⟨⟨hdef, -, houts⟩, -, hnames, -⟩ := CopyAux.unserializeOpDesc_frame d
  obtain ⟨hdesc, hkey, hvalue⟩ := serializeOpDesc_outputs hser
  refine ⟨rfl, houts.trans hdesc, ?_⟩
  rw [OpDesc.copiedOutputNames, ← hkey, ← hvalue, ← hnames]
  rfl

/-! ## The parts of a copy -/

theorem keeps_relinkPeer (h₀ : Heap) (allNodes : OrderedMap String NodeId) (outAnchor : Heap → Option AnchorId)
    (peer : AnchorId) : Keeps h₀.OutputsKept (relinkPeer allNodes outAnchor peer) := by
  refine Keeps.get fun h => Triple.mono ?_ (fun _ ht => ht.2) fun _ _ ht => ht
  cases allNodes.find (Node.getName h (h.owner peer)) with
  | none => exact Keeps.pure false
  | some n => exact keeps_addEdge h₀ _ _

theorem keeps_relinkGraphEdges (h₀ : Heap) (allNodes : OrderedMap String NodeId) (node : NodeId) :
    Keeps h₀.OutputsKept (relinkGraphEdges allNodes node) := by
  refine Keeps.get fun h => Triple.mono ?_ (fun _ ht => ht.2) fun _ _ ht => ht
  cases allNodes.find (Node.getName h node) with
  | none => exact Keeps.pure false
  | some n =>
    refine Keeps.bind (Keeps.eachOk fun a _ => Keeps.eachOk fun b _ => keeps_relinkPeer h₀ _ _ _) fun ok => ?_
    exact Keeps.ite (fun _ => Keeps.pure false) fun _ => Keeps.eachOk fun b _ => keeps_relinkPeer h₀ _ _ _

theorem keeps_copyInput (h₀ : Heap) (dst : GraphId) (allNodes : OrderedMap String NodeId) (node : NodeId) :
    Keeps h₀.OutputsKept (copyInput dst allNodes node) := by
  refine Keeps.get fun h => Triple.mono ?_ (fun _ ht => ht.2) fun _ _ ht => ht
  cases allNodes.find (Node.getName h node) with
  | none => exact Keeps.pure false
  | some n => exact Keeps.bind (keeps_addInputNode h₀ dst n) fun _ => Keeps.pure true

theorem keeps_copyMembers (h₀ : Heap) (src dst : GraphId) (allNodes : OrderedMap String NodeId) :
    Keeps h₀.OutputsKept (copyMembers src dst allNodes) := by
  refine Keeps.get fun h => Triple.mono ?_ (fun _ ht => ht.2) fun _ _ ht => ht
  cases (h.graph src).outputNodesInfo.mapM fun info =>
      (allNodes.find (Node.getName h info.1)).map fun node => (node, info.2) with
  | none => exact Keeps.pure false
  | some outputs =>
    refine Keeps.bind (keeps_edit h₀ dst _) fun _ => ?_
    refine Keeps.bind (Keeps.eachOk fun n _ => keeps_copyInput h₀ dst allNodes n) fun ok => ?_
    refine Keeps.ite (fun _ => Keeps.pure false) fun _ => ?_
    cases (h.graph src).targetNodesInfo.mapM fun node => allNodes.find (Node.getName h node) with
    | none => exact Keeps.pure false
    | some targets =>
      refine Keeps.bind (keeps_edit h₀ dst _) fun _ => Keeps.get fun h => ?_
      exact (Keeps.bind (keeps_edit h₀ dst _) fun _ => Keeps.pure true).mono (fun _ ht => ht.2) fun _ _ ht => ht

/-! ## The nodes of a graph -/

/-- What the copies made are: of each node one over a copy of its descriptor, and of each descriptor a copy. -/
structure Good (h₀ t : Heap) (copies : Copies) : Prop where
  nodes : ∀ n new, copies.nodeOld2New.find n = some new →
    new < t.nodeCount ∧ (t.node new).op < t.opCount ∧ (h₀.desc n).IsCopy (t.desc new)
  descs : ∀ o new, copies.opDescOld2New.find o = some new → new < t.opCount ∧ (h₀.op o).IsCopy (t.op new)

theorem Good.kept (hg : Good h₀ t copies) (hk : t.OutputsKept u) : Good h₀ u copies where
  nodes n new hnew := by
    obtain ⟨hn, ho, hc⟩ := hg.nodes n new hnew
    have hop := hk.node new hn
    refine ⟨Nat.lt_of_lt_of_le hn hk.nodeCount, ?_, ?_⟩
    · rw [hop]
      exact Nat.lt_of_lt_of_le ho hk.opCount
    · have hdesc : u.desc new = u.op (t.node new).op := by rw [Heap.desc, hop]
      rw [hdesc]
      exact IsCopy.congr hc (SameOutputs.refl _) (hk.op _ ho)
  descs o new hnew := by
    obtain ⟨ho, hc⟩ := hg.descs o new hnew
    exact ⟨Nat.lt_of_lt_of_le ho hk.opCount, IsCopy.congr hc (SameOutputs.refl _) (hk.op _ ho)⟩

theorem keeps_copyNode (h₀ : Heap) (dst : GraphId) (n : NodeId) (copies : Copies) :
    Keeps h₀.OutputsKept (copyNode dst n copies) := by
  refine Keeps.get fun h => Triple.mono (P := h₀.OutputsKept) ?_ (fun _ ht => ht.2) fun _ _ ht => ht
  cases copyDesc (h.desc n) with
  | none => exact Keeps.undef
  | some copy =>
    refine Keeps.ite (fun _ => Keeps.pure none) fun _ => ?_
    refine Keeps.bind (keeps_modify h₀ fun h => OutputsKept.makeOp h copy) fun _ => ?_
    refine Keeps.bind (keeps_addOpNode h₀ dst h.opCount) fun r => ?_
    cases r <;> exact Keeps.pure _

/-- What adding a copy of a node adds is a copy. -/
theorem copyNode_good {r : Option (NodeId × Copies)}
    (hk : h₀.OutputsKept h) (hg : Good h₀ h copies) (hn : n < h₀.nodeCount) (ho : (h₀.node n).op < h₀.opCount)
    (hr : copyNode dst n copies h = some (r, t)) : ∀ node copies', r = some (node, copies') → Good h₀ t copies' := by
  simp only [copyNode, get_bind_apply] at hr
  cases hcopy : copyDesc (h.desc n) with
  | none => simp [hcopy] at hr
  | some copy =>
    simp only [hcopy] at hr
    split at hr
    · obtain ⟨rfl, rfl⟩ := of_return hr
      nofun
    · rw [modify_bind_apply] at hr
      obtain ⟨added, u, hu, hr⟩ := bind_eq_some.mp hr
      obtain ⟨rfl, hnew, hop⟩ := addOpNode_new hu
      obtain ⟨rfl, rfl⟩ := of_return hr
      have hadd := kept_of_keeps (fun h₁ => keeps_addOpNode h₁ dst h.opCount) hu
      have hkept := hg.kept (OutputsKept.trans (OutputsKept.makeOp h copy) hadd)
      have hlt : h.opCount < (LinkCall.makeOp copy h).opCount := Nat.lt_succ_self _
      have hlt' : h.opCount < u.opCount := Nat.lt_of_lt_of_le hlt hadd.opCount
      have hsame : (h₀.op (h₀.node n).op).SameOutputs (h.op (h.node n).op) := by
        rw [hk.node n hn]
        exact hk.op _ ho
      have hself : (LinkCall.makeOp copy h).op h.opCount = copy := by
        rw [LinkCall.makeOp, setOp_op, if_pos rfl]
      have hiscopy : (h₀.desc n).IsCopy (u.op h.opCount) :=
        IsCopy.congr (copyDesc_isCopy hcopy) hsame (hself ▸ hadd.op _ hlt)
      intro node copies' he
      obtain ⟨rfl, rfl⟩ := of_return he
      constructor
      · intro m new hm
        rw [OrderedMap.find_assign] at hm
        split at hm
        · rename_i hmn
          obtain rfl := Option.some.inj hm
          rw [hmn]
          have hdesc : u.desc (LinkCall.makeOp copy h).nodeCount = u.op h.opCount := by rw [Heap.desc, hop]
          exact ⟨hnew, hop ▸ hlt', hdesc ▸ hiscopy⟩
        · exact hkept.nodes m new hm
      · intro o new hm
        rw [OrderedMap.find_assign] at hm
        split at hm
        · rename_i hmo
          obtain rfl := Option.some.inj hm
          rw [hmo, hk.node n hn]
          exact ⟨hlt', hiscopy⟩
        · exact hkept.descs o new hm

section
variable {copyGraph : GraphId → GraphId → Nat → Cmd Heap (Option (Copies × Nat))} {h₀ : Heap}
variable (hcopy : ∀ h₁ : Heap, ∀ src dst depth, Keeps h₁.OutputsKept (copyGraph src dst depth))
include hcopy

/-- Copying the subgraphs of a node keeps outputs. -/
theorem keeps_copySubgraphs (fuel : Nat) (src dst : GraphId) (n node : NodeId) (names : List String) :
    ∀ depth, Keeps h₀.OutputsKept (copySubgraphs copyGraph fuel src dst n node names depth) := by
  induction names with
  | nil => exact fun depth => Keeps.pure _
  | cons name names ih =>
    intro depth
    refine Keeps.get fun h => Triple.mono (P := h₀.OutputsKept) ?_ (fun _ ht => ht.2) fun _ _ ht => ht
    cases ComputeGraph.getSubgraph h fuel src name with
    | none => exact Keeps.undef
    | some sub =>
      cases sub with
      | none => exact Keeps.undef
      | some srcSubgraph =>
        refine Keeps.bind (keeps_makeGraph h₀ _) fun dstSubgraph => ?_
        refine Keeps.bind (hcopy h₀ _ _ _) fun r => ?_
        cases r with
        | none => exact Keeps.pure none
        | some r =>
          refine Keeps.bind (Keeps.bind (keeps_edit h₀ dst _) fun _ => Keeps.get fun g => ?_) fun _ => ?_
          · exact (Keeps.bind (keeps_edit h₀ dst _) fun _ => Keeps.pure _).mono (fun _ ht => ht.2) fun _ _ ht => ht
          · refine Keeps.bind (keeps_edit h₀ dstSubgraph _) fun _ => Keeps.bind (keeps_edit h₀ dstSubgraph _) fun _ => ?_
            exact Keeps.bind (keeps_modify h₀ fun h => OutputsKept.setOp ⟨rfl, rfl, rfl, rfl, rfl⟩) fun _ => ih _

theorem keeps_copyNodes (fuel : Nat) (src dst : GraphId) (l : List NodeId) :
    ∀ copies depth, Keeps h₀.OutputsKept (copyNodes copyGraph fuel src dst l copies depth) := by
  induction l with
  | nil => exact fun copies depth => Keeps.pure _
  | cons n l ih =>
    intro copies depth
    refine Keeps.bind (keeps_copyNode h₀ dst n copies) fun added => ?_
    cases added with
    | none => exact Keeps.pure none
    | some added =>
      refine Keeps.get fun h => Triple.mono (P := h₀.OutputsKept) ?_ (fun _ ht => ht.2) fun _ _ ht => ht
      refine Keeps.bind (keeps_copySubgraphs hcopy fuel src dst n added.1 _ depth) fun d => ?_
      cases d with
      | none => exact Keeps.pure none
      | some d => exact ih added.2 d

/-- What copying nodes makes are copies. -/
theorem copyNodes_good (fuel : Nat) (src dst : GraphId) (l : List NodeId) : ∀ {copies : Copies} {depth : Nat} {h t : Heap}
    {r : Option (Copies × Nat)}, h₀.OutputsKept h → Good h₀ h copies →
    (∀ n ∈ l, n < h₀.nodeCount ∧ (h₀.node n).op < h₀.opCount) →
    copyNodes copyGraph fuel src dst l copies depth h = some (r, t) → ∀ c d, r = some (c, d) → Good h₀ t c := by
  induction l with
  | nil =>
    intro copies depth h t r hk hg _ hr c d he
    obtain ⟨rfl, rfl⟩ := of_return hr
    obtain ⟨rfl, -⟩ := of_return he
    exact hg
  | cons n l ih =>
    intro copies depth h t r hk hg hl hr
    obtain ⟨hn, ho⟩ := hl n List.mem_cons_self
    obtain ⟨added, u, hu, hr⟩ := bind_eq_some.mp hr
    have hhu := kept_of_keeps (fun h₁ => keeps_copyNode h₁ dst n copies) hu
    have hgood := copyNode_good hk hg hn ho hu
    cases added with
    | none =>
      obtain ⟨rfl, rfl⟩ := of_return hr
      nofun
    | some added =>
      obtain ⟨node, copies'⟩ := added
      simp only [get_bind_apply] at hr
      obtain ⟨d, v, hv, hr⟩ := bind_eq_some.mp hr
      have huv := kept_of_keeps (fun h₁ => keeps_copySubgraphs hcopy fuel src dst n node _ depth) hv
      cases d with
      | none =>
        obtain ⟨rfl, rfl⟩ := of_return hr
        nofun
      | some d =>
        have hkv := OutputsKept.trans (OutputsKept.trans hk hhu) huv
        exact ih hkv ((hgood node copies' rfl).kept huv) (fun m hm => hl m (List.mem_cons_of_mem n hm)) hr

end

/-! ## The whole graph -/

theorem keeps_copyComputeGraph (fuel : Nat) (depths : Nat) : ∀ (h₀ : Heap) (src dst : GraphId) (depth : Nat),
    Keeps h₀.OutputsKept (copyComputeGraph depths fuel src dst depth) := by
  induction depths with
  | zero => exact fun _ _ _ _ => Keeps.undef
  | succ depths ih =>
    intro h₀ src dst depth
    refine Keeps.ite (fun _ => Keeps.pure none) fun _ => Keeps.get fun h => Triple.mono (P := h₀.OutputsKept) ?_
      (fun _ ht => ht.2) fun _ _ ht => ht
    refine Keeps.bind (keeps_copyNodes ih fuel src dst _ {} depth) fun r => ?_
    cases r with
    | none => exact Keeps.pure none
    | some r =>
      refine Keeps.bind (Keeps.eachOk fun n _ => keeps_relinkGraphEdges h₀ _ n) fun ok => ?_
      refine Keeps.ite (fun _ => Keeps.pure none) fun _ => ?_
      exact Keeps.bind (keeps_copyMembers h₀ src dst _) fun ok =>
        Keeps.ite (fun _ => Keeps.pure none) fun _ => Keeps.pure _

/-- Copying a graph whose nodes were made keeps outputs, and makes copies. -/
theorem copyComputeGraph_good {depths fuel depth d : Nat} {src : GraphId}
    (hmade : ∀ n ∈ (h.graph src).nodes, n < h.nodeCount ∧ (h.node n).op < h.opCount)
    (hr : copyComputeGraph depths fuel src dst depth h = some (some (copies, d), t)) :
    h.OutputsKept t ∧ Good h t copies := by
  cases depths with
  | zero => simp [copyComputeGraph] at hr
  | succ depths =>
    simp only [copyComputeGraph] at hr
    split at hr
    · simp at hr
    · rw [get_bind_apply] at hr
      obtain ⟨r, u, hu, hr⟩ := bind_eq_some.mp hr
      have hcopy := keeps_copyComputeGraph fuel depths
      have hhu := kept_of_keeps (fun h₁ => keeps_copyNodes hcopy fuel src dst _ {} depth) hu
      have hempty : Good h h {} := ⟨fun _ _ hm => by simp [OrderedMap.find] at hm, fun _ _ hm => by simp [OrderedMap.find] at hm⟩
      have hgood := copyNodes_good hcopy fuel src dst _ (OutputsKept.refl h) hempty hmade hu
      cases r with
      | none => simp at hr
      | some r =>
        obtain ⟨copies', d'⟩ := r
        obtain ⟨ok, v, hv, hr⟩ := bind_eq_some.mp hr
        have huv := kept_of_keeps (fun h₁ => Keeps.eachOk fun n _ => keeps_relinkGraphEdges h₁ _ n) hv
        cases ok with
        | false => simp at hr
        | true =>
          obtain ⟨ok, w, hw, hr⟩ := bind_eq_some.mp (show _ = _ from hr)
          have hvw := kept_of_keeps (fun h₁ => keeps_copyMembers h₁ src dst _) hw
          cases ok with
          | false => simp at hr
          | true =>
            obtain ⟨⟨rfl, rfl⟩, rfl⟩ : (copies' = copies ∧ d' = d) ∧ w = t := by simpa using hr
            have huw := OutputsKept.trans huv hvw
            exact ⟨OutputsKept.trans hhu huw, (hgood _ _ rfl).kept huw⟩

end CopiesAux

end Metadef
