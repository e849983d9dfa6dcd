import Metadef.Lemmas.NewNodes
import Metadef.TransNode
import Metadef.Theorems.LinkSymmetry

/-!
# The chain of inserted nodes

`InsertTransNode` is to put a chain of new nodes in place of the edge into an input. The check on the output of a new node
fails whenever it is made, so a descriptor that names both formats stops the call, and one that names a single format is
not followed.
-/

namespace Metadef

open List Function

open Cmd Heap GraphUtils TransState LinkAux

variable {M : AttrMessages}

/-- A descriptor without inputs and outputs. -/
structure OpDesc.Fresh (d : OpDesc) : Prop where
  inputs : d.inputsDesc = [] ∧ d.inputNameIdx = []
  outputs : d.outputsDesc = [] ∧ d.outputNameIdx = []

/-- An inserted node, with its two data anchors. -/
structure TransHop where
  node : NodeId
  input : AnchorId
  output : AnchorId

/-- The anchors lead from an output through the nodes to an input. The output and the input have other peers too, the nodes on
the way have none. -/
def Heap.LeadsThrough (h : Heap) (x : AnchorId) (restX : List AnchorId) : List AnchorId → AnchorId → List TransHop → Prop
  | rest, s, [] => (h.peers s).Perm (rest ++ [x]) ∧ (h.peers x).Perm (s :: restX)
  | rest, s, p :: l => (h.peers s).Perm (rest ++ [p.input]) ∧ h.peers p.input = [s] ∧ h.LeadsThrough x restX [] p.output l

/-- What inserting nodes over descriptors between an output and an input leaves: the nodes are new, each over its descriptor,
listed in order and passed on the way from the output to the input; other links and old formats stay. -/
structure TransState.Chained (σ τ : TransState M) (g : GraphId) (x s : AnchorId) (ops : List OpId) (hops : List TransHop) :
    Prop where
  ops : hops.map (fun p => (τ.heap.node p.node).op) = ops
  anchors : ∀ p ∈ hops, (τ.heap.node p.node).inDataAnchors = [p.input] ∧ (τ.heap.node p.node).outDataAnchors = [p.output]
  fresh : ∀ p ∈ hops, σ.heap.nodeCount ≤ p.node ∧ σ.heap.anchorCount ≤ p.input ∧ σ.heap.anchorCount ≤ p.output
  listed : (τ.heap.graph g).nodes = (σ.heap.graph g).nodes ++ hops.map TransHop.node
  path : τ.heap.LeadsThrough x ((σ.heap.peers x).erase s) ((σ.heap.peers s).erase x) s hops
  others : ∀ z, z ≠ s → z ≠ x → (∀ p ∈ hops, z ≠ p.input ∧ z ≠ p.output) → τ.heap.peers z = σ.heap.peers z
  kept : ∀ z < σ.heap.anchorCount, τ.format z = σ.format z

/-- The anchors of the nodes have the formats their descriptors name. -/
def TransState.FormatsRecorded (σ τ : TransState M) (hops : List TransHop) : Prop :=
  ∀ p ∈ hops,
    (∀ f, σ.getInt (τ.heap.node p.node).op "input_format" = some f → τ.format p.input = Format.ofInt64 f) ∧
    ∀ f, σ.getInt (τ.heap.node p.node).op "output_format" = some f → τ.format p.output = Format.ofInt64 f

/-- Inserting nodes succeeds and puts the whole chain in place of the edge. -/
def TransState.BuildsChain (σ : TransState M) (g : GraphId) (x s : AnchorId) (ops : List OpId) : Prop :=
  ∃ τ hops, insertTransNode g (some x) (ops.map some) σ = some (true, τ) ∧ σ.Chained τ g x s ops hops ∧
    σ.FormatsRecorded τ hops

/-- A descriptor names at most one format, and that is the one anchors are made with. -/
structure TransState.NamesNone (σ : TransState M) (op : OpId) : Prop where
  one : σ.getInt op "input_format" = none ∨ σ.getInt op "output_format" = none
  input : ∀ f, σ.getInt op "input_format" = some f → Format.ofInt64 f = Format.nd
  output : ∀ f, σ.getInt op "output_format" = some f → Format.ofInt64 f = Format.nd

namespace TransAux

variable {σ τ : TransState M} {h t t' : Heap} {g : GraphId} {x s a b : AnchorId} {op : OpId} {ops : List OpId}
variable {rest : List AnchorId}

/-! ## The links of one round -/

theorem addDataEdge_free (hfree : t.peers b = []) : addDataEdge (some a) (some b) t = some (true, Anchor.linked t a b) := by
  simp [addDataEdge, addEdgeBy, OutDataAnchor.linkTo, Anchor.link, hfree]

theorem addDataEdge_taken (htaken : t.peers b ≠ []) : addDataEdge (some a) (some b) t = some (false, t) := by
  simp [addDataEdge, addEdgeBy, OutDataAnchor.linkTo, Anchor.link, htaken]

/-- The input loses the output that feeds it, which feeds a new anchor instead. -/
theorem cut_links (ht : t.Sound) (hx : t.peers x = s :: rest) (hxs : x ≠ s) (ha : t.Held a) (hnone : t.peers a = []) :
    ∃ t₁ t₂, removeEdge (some s) (some x) t = some (true, t₁) ∧ addDataEdge (some s) (some a) t₁ = some (true, t₂) ∧
      t₂.Sound ∧ SameLayout t t₂ ∧ t₂.graph = t.graph ∧ t₂.op = t.op ∧
      ∀ z, t₂.peers z = if z = x then rest else if z = s then (t.peers s).erase x ++ [a] else if z = a then [s]
        else t.peers z := by
  have hsx : x ∈ t.peers s := ht.symm.mem (by simp [hx])
  have hxa : x ≠ a := by
    rintro rfl
    rw [hnone] at hx
    cases hx
  have hsa : s ≠ a := by
    rintro rfl
    rw [hnone] at hsx
    cases hsx
  obtain ⟨t₁, h₁⟩ := unlink_returns ht hsx hxs
  obtain ⟨-, -, hlayout, hpeers⟩ := unlink_true ht h₁
  have hgraph : t₁.graph = t.graph ∧ t₁.op = t.op := by
    rcases unlink_cases h₁ with ⟨hfalse, -⟩ | ⟨-, p, i, j, -, -, -, -, rfl⟩
    · cases hfalse
    · exact ⟨rfl, rfl⟩
  have hsound : t₁.Sound := keeps_unlink s (some x) _ _ _ ht h₁
  have hfree : t₁.peers a = [] := by rw [hpeers, if_neg hxa.symm, if_neg hsa.symm, hnone]
  have hheld : t.Held s := ht.peersHeld x s (by simp [hx])
  refine ⟨t₁, _, h₁, addDataEdge_free hfree, hsound.linked ((hlayout.held s).mpr hheld) ((hlayout.held a).mpr ha),
    hlayout.trans (sameLayout_linked _ _ _), hgraph.1, hgraph.2, fun z => ?_⟩
  have herase : (t.peers x).erase s = rest := by rw [hx, erase_cons_head]
  simp only [linked_peers, Adjacency.push, update_apply, hpeers, herase]
  by_cases hzx : z = x
  · subst hzx
    simp [hxa, hxs]
  · by_cases hzs : z = s
    · subst hzs
      simp [hsa, hzx]
    · by_cases hza : z = a
      · subst hza
        simp [hsa.symm, hxa.symm, hnone]
      · simp [hzx, hzs, hza]

/-! ## One round -/

theorem onHeap_of_eq {α : Type} {c : Cmd Heap α} {r : α} (hc : c σ.heap = some (r, t)) :
    onHeap c σ = some (r, { σ with heap := t }) := by
  simp [onHeap, hc]

/-- A fresh descriptor with an input and an output. -/
def madeDesc (d : OpDesc) : OpDesc := ((d.addInputDesc {}).2.addOutputDesc {}).2

theorem madeDesc_sizes {d : OpDesc} (hd : d.Fresh) : (d.addInputDesc {}).1 = true ∧
    ((d.addInputDesc {}).2.addOutputDesc {}).1 = true ∧ (madeDesc d).getAllInputsSize = 1 ∧ (madeDesc d).getOutputsSize = 1 := by
  obtain ⟨⟨h1, h2⟩, h3, h4⟩ := hd
  simp [madeDesc, OpDesc.addInputDesc, OpDesc.addInputDescNamed, OpDesc.addOutputDesc, OpDesc.addOutputDescNamed, h1, h2, h3, h4,
    OrderedMap.contains, OpDesc.getAllInputsSize, OpDesc.getOutputsSize]

/-- The state in which a new node over a descriptor, with an input and an output, is listed. -/
structure Entered (σ τ : TransState M) (g : GraphId) (op : OpId) (a b : AnchorId) : Prop where
  added : NewNodesAux.NodeAdded (σ.heap.setOp op (madeDesc (σ.heap.op op))) g op τ.heap
  inputs : (τ.heap.node σ.heap.nodeCount).inDataAnchors = [a]
  outputs : (τ.heap.node σ.heap.nodeCount).outDataAnchors = [b]
  format : τ.format = fun z => if z < σ.heap.anchorCount then σ.format z else Format.nd
  attrs : τ.attrs = σ.attrs ∧ τ.requiredAttrs = σ.requiredAttrs

theorem addTransNode_enters (hs : σ.heap.Sound) (g : GraphId) (hd : (σ.heap.op op).Fresh) :
    ∃ σ₁ σ₂ τ a b, editDesc op (fun d => d.addInputDesc {}) σ = some (true, σ₁) ∧
      editDesc op (fun d => d.addOutputDesc {}) σ₁ = some (true, σ₂) ∧
      addTransNode g op σ₂ = some (some σ.heap.nodeCount, τ) ∧ Entered σ τ g op a b := by
  obtain ⟨hin, hout, hinputs, houtputs⟩ := madeDesc_sizes hd
  obtain ⟨σ₁, hσ₁⟩ : ∃ σ₁, σ₁ = { σ with heap := σ.heap.setOp op ((σ.heap.op op).addInputDesc {}).2 } := ⟨_, rfl⟩
  obtain ⟨σ₂, hσ₂⟩ : ∃ σ₂, σ₂ = { σ with heap := σ.heap.setOp op (madeDesc (σ.heap.op op)) } := ⟨_, rfl⟩
  have h₁ : editDesc op (fun d => d.addInputDesc {}) σ = some (true, σ₁) := by
    simp only [editDesc, get_bind_apply, set_bind_apply, hin, hσ₁]
    rfl
  have h₂ : editDesc op (fun d => d.addOutputDesc {}) σ₁ = some (true, σ₂) := by
    have hop : σ₁.heap.op op = ((σ.heap.op op).addInputDesc {}).2 := by simp [hσ₁]
    have hset : σ₁.heap.setOp op (madeDesc (σ.heap.op op)) = σ.heap.setOp op (madeDesc (σ.heap.op op)) := by
      simp [hσ₁, Heap.setOp]
    simp only [editDesc, get_bind_apply, set_bind_apply, hop, hout, hσ₂, ← hset]
    rw [hσ₁]
    rfl
  have hsound : (σ.heap.setOp op (madeDesc (σ.heap.op op))).Sound :=
    hs.of_anchors rfl rfl (by funext m k; cases k <;> rfl) rfl
  obtain ⟨t, hrun, ha⟩ := NewNodesAux.addOpNode_adds hsound g op
  have hop : (σ.heap.setOp op (madeDesc (σ.heap.op op))).op op = madeDesc (σ.heap.op op) := by simp
  have hone := ha.inputs
  have hone' := ha.outputs
  rw [hop, hinputs] at hone
  rw [hop, houtputs] at hone'
  obtain ⟨a, ha'⟩ := length_eq_one_iff.mp hone
  obtain ⟨b, hb'⟩ := length_eq_one_iff.mp hone'
  refine ⟨σ₁, σ₂, { σ₂ with heap := t, format := fun z => if z < σ.heap.anchorCount then σ.format z else Format.nd }, a, b, h₁, h₂,
    ?_, ⟨ha, ha', hb', rfl, by rw [hσ₂]; exact ⟨rfl, rfl⟩⟩⟩
  have hheap : ComputeGraph.addOpNode g (some op) σ₂.heap = some (some σ.heap.nodeCount, t) := by
    rw [hσ₂]
    exact hrun
  simp only [addTransNode, get_bind_apply, bind_of_eq (onHeap_of_eq hheap), modify_bind_apply]
  rw [hσ₂]
  rfl

/-- An anchor is found by its index. -/
theorem getInDataAnchor_idx (ht : t.Sound) (hx : t.Held x) (hk : t.kind x = .inData) :
    Node.getInDataAnchor t (t.owner x) (t.anchor x).idx = some x := by
  obtain ⟨hmade, hmem⟩ := hx
  rw [hk] at hmem
  obtain ⟨i, hi⟩ := getElem?_of_mem hmem
  rw [ht.laid.idx (t.owner x) hmade .inData rfl i x hi]
  have hget : (t.node (t.owner x)).inDataAnchors[i]? = some x := hi
  simp [Node.getInDataAnchor, hget]

theorem getOutDataAnchor_idx (ht : t.Sound) (hx : t.Held x) (hk : t.kind x = .outData) :
    Node.getOutDataAnchor t (t.owner x) (t.anchor x).idx = some x := by
  obtain ⟨hmade, hmem⟩ := hx
  rw [hk] at hmem
  obtain ⟨i, hi⟩ := getElem?_of_mem hmem
  rw [ht.laid.idx (t.owner x) hmade .outData rfl i x hi]
  have hget : (t.node (t.owner x)).outDataAnchors[i]? = some x := hi
  simp [Node.getOutDataAnchor, hget]

/-- The objects an edge into an input joins. -/
structure Fed (h : Heap) (x s : AnchorId) (rest : List AnchorId) : Prop where
  sound : h.Sound
  peers : h.peers x = s :: rest
  kind : h.kind x = .inData
  source : h.kind s = .outData

theorem Fed.held (hf : Fed h x s rest) : h.Held x ∧ h.Held s := by
  have hs : s ∈ h.peers x := by simp [hf.peers]
  exact ⟨hf.sound.peersHeld s x (hf.sound.symm.mem hs), hf.sound.peersHeld x s hs⟩

/-- The new anchors of a node that was entered. -/
theorem Entered.anchors (he : Entered σ τ g op a b) (hs : σ.heap.Sound) :
    τ.heap.Held a ∧ τ.heap.Held b ∧ τ.heap.kind a = .inData ∧ τ.heap.kind b = .outData ∧ σ.heap.anchorCount ≤ a ∧
      σ.heap.anchorCount ≤ b ∧ τ.heap.peers = σ.heap.peers ∧ τ.heap.peers a = [] ∧ τ.heap.peers b = [] := by
  have hsound := he.added.anchors.sound
  have hmade : σ.heap.nodeCount < τ.heap.nodeCount := by
    rw [he.added.nodeCount]
    exact Nat.lt_succ_self _
  have ha : a ∈ τ.heap.anchorsOf σ.heap.nodeCount .inData := by simp [Heap.anchorsOf, he.inputs]
  have hb : b ∈ τ.heap.anchorsOf σ.heap.nodeCount .outData := by simp [Heap.anchorsOf, he.outputs]
  have hla : σ.heap.anchorCount ≤ a := he.added.anchors.fresh _ (Nat.le_refl _) hmade _ a ha
  have hlb : σ.heap.anchorCount ≤ b := he.added.anchors.fresh _ (Nat.le_refl _) hmade _ b hb
  have hpeers : τ.heap.peers = σ.heap.peers := he.added.anchors.peers
  refine ⟨hsound.laid.held hmade ha, hsound.laid.held hmade hb, hsound.laid.kind _ hmade _ a ha, hsound.laid.kind _ hmade _ b hb,
    hla, hlb, hpeers, ?_, ?_⟩
  · rw [hpeers]
    exact AnchorAux.peers_of_not_made hs hla
  · rw [hpeers]
    exact AnchorAux.peers_of_not_made hs hlb

/-- The anchors there were are as they were. -/
theorem Entered.fed (he : Entered σ τ g op a b) (hf : Fed σ.heap x s rest) : Fed τ.heap x s rest := by
  obtain ⟨hx, hs⟩ := hf.held
  have hanchor : ∀ z, σ.heap.Held z → τ.heap.anchor z = σ.heap.anchor z := fun z hz =>
    he.added.anchors.anchor z (hf.sound.laid.made _ hz.1 _ z hz.2)
  have hpeers : τ.heap.peers = σ.heap.peers := he.added.anchors.peers
  refine ⟨he.added.anchors.sound, by rw [hpeers, hf.peers], ?_, ?_⟩
  · rw [Heap.kind, hanchor x hx]
    exact hf.kind
  · rw [Heap.kind, hanchor s hs]
    exact hf.source

/-- A round up to the link from the new node to the input. -/
theorem insertTransOp_start (hf : Fed σ.heap x s rest) (g : GraphId) (hd : (σ.heap.op op).Fresh) :
    ∃ τ t a b, Entered σ τ g op a b ∧ t.Sound ∧ SameLayout τ.heap t ∧ t.graph = τ.heap.graph ∧ t.op = τ.heap.op ∧
      (∀ z, t.peers z = if z = x then rest else if z = s then (σ.heap.peers s).erase x ++ [a] else if z = a then [s]
        else σ.heap.peers z) ∧
      insertTransOp g x (some op) σ = (do
        if !(← onHeap (addDataEdge (some b) (some x))) then return false
        recordFormats op a b (τ.format s) (τ.format x) : Cmd (TransState M) Bool) { τ with heap := t } := by
  obtain ⟨σ₁, σ₂, τ, a, b, h₁, h₂, h₃, he⟩ := addTransNode_enters hf.sound g hd
  obtain ⟨hheldA, hheldB, hkindA, hkindB, -, -, hpeers, hnoneA, hnoneB⟩ := he.anchors hf.sound
  have hfed := he.fed hf
  obtain ⟨hheldX, hheldS⟩ := hfed.held
  have hxs : x ≠ s := by
    rintro rfl
    have hkind := hf.kind.symm.trans hf.source
    cases hkind
  obtain ⟨t₁, t₂, h₄, h₅, hsound, hlayout, hgraph, hop, hpeers₂⟩ := cut_links hfed.sound hfed.peers hxs hheldA hnoneA
  refine ⟨τ, t₂, a, b, he, hsound, hlayout, hgraph, hop, by rw [← hpeers]; exact hpeers₂, ?_⟩
  have hpeer : InDataAnchor.getPeerOutAnchor τ.heap x = some s := by
    simp [InDataAnchor.getPeerOutAnchor, hfed.peers, hfed.source]
  have hin : Node.getInDataAnchor τ.heap σ.heap.nodeCount 0 = some a := by simp [Node.getInDataAnchor, he.inputs]
  have hout : Node.getOutDataAnchor τ.heap σ.heap.nodeCount 0 = some b := by simp [Node.getOutDataAnchor, he.outputs]
  rw [insertTransOp]
  simp only [bind_of_eq h₁, bind_of_eq h₂, bind_of_eq h₃, get_bind_apply, hpeer, getOutDataAnchor_idx hfed.sound hheldS hfed.source,
    getInDataAnchor_idx hfed.sound hheldX hfed.kind, hin, hout, bind_of_eq (onHeap_of_eq h₄), Bool.not_true, Bool.false_eq_true,
    if_false]
  have h₅' : onHeap (addDataEdge (some s) (some a)) { τ with heap := t₁ } = some (true, { τ with heap := t₂ }) :=
    onHeap_of_eq (σ := { τ with heap := t₁ }) h₅
  rw [bind_of_eq h₅']
  rfl

/-! ## The formats -/

theorem hasAttr_of_getInt {name : String} {f : Int64} (hf : σ.getInt op name = some f) : σ.hasAttr op name = true := by
  cases hfind : (σ.attrs op).attrMap.bind (·.find name) with
  | none => simp [getInt, AttrUtils.get, hfind] at hf
  | some d => simp [hasAttr, hfind]

/-- A descriptor that names both formats stops the call: the output of the new node feeds the input. -/
theorem recordFormats_named {i o : Int64} {srcFormat dstFormat : Format} (hi : σ.getInt op "input_format" = some i)
    (ho : σ.getInt op "output_format" = some o) (hx : x ∈ σ.heap.peers b) (hk : σ.heap.kind x = .inData) :
    ∃ τ, recordFormats op a b srcFormat dstFormat σ = some (false, τ) := by
  have hsome : OutDataAnchor.getPeerInDataAnchors σ.heap b ≠ [] := by
    refine ne_nil_of_mem (mem_filter.mpr ⟨hx, ?_⟩)
    simp [hk]
  have hformats : ∃ τ, setTransFormats a b srcFormat (Format.ofInt64 i) (Format.ofInt64 o) dstFormat σ = some (false, τ) := by
    simp only [setTransFormats, get_bind_apply]
    cases hp : InDataAnchor.getPeerOutAnchor σ.heap a with
    | none => exact ⟨σ, rfl⟩
    | some s => exact ⟨σ, by simp [hsome]⟩
  obtain ⟨τ, hτ⟩ := hformats
  refine ⟨τ, ?_⟩
  simp only [recordFormats, get_bind_apply, hasAttr_of_getInt hi, if_true, hi, ho, bind_of_eq hτ]
  rfl

/-- Recording names changes no format attribute. -/
theorem getInt_record (op p : OpId) {name : String} (hname : name ≠ "_datadump_original_op_names") :
    TransState.getInt { σ with attrs := Function.update σ.attrs op (AttrUtils.set (σ.attrs op) "_datadump_original_op_names"
      (.list .str) ([] : List String)).2 } p name = σ.getInt p name := by
  have hfind : (Function.update σ.attrs op (AttrUtils.set (σ.attrs op) "_datadump_original_op_names" (.list .str)
      ([] : List String)).2 p).attrMap.bind (·.find name) = (σ.attrs p).attrMap.bind (·.find name) := by
    by_cases hp : p = op
    · subst hp
      rw [update_self]
      cases hm : (σ.attrs p).attrMap with
      | none => simp [AttrUtils.set, hm]
      | some m => simp [AttrUtils.set, hm, OrderedMap.find_assign, hname]
    · rw [update_of_ne hp]
  unfold TransState.getInt AttrUtils.get
  rw [hfind]

/-- A descriptor that does not name both formats leaves all formats. -/
theorem recordFormats_unnamed (srcFormat dstFormat : Format)
    (hone : σ.getInt op "input_format" = none ∨ σ.getInt op "output_format" = none) :
    ∃ τ, recordFormats op a b srcFormat dstFormat σ = some (true, τ) ∧ τ.heap = σ.heap ∧ τ.format = σ.format ∧
      ∀ p name, name ≠ "_datadump_original_op_names" → τ.getInt p name = σ.getInt p name := by
  by_cases hattr : σ.hasAttr op "input_format" = true
  · refine ⟨σ, ?_, rfl, rfl, fun _ _ _ => rfl⟩
    simp only [recordFormats, get_bind_apply, hattr, if_true]
    rcases hone with hi | ho
    · simp [hi]
    · cases hi : σ.getInt op "input_format" with
      | none => simp
      | some i => simp [ho]
  · refine ⟨{ σ with attrs := Function.update σ.attrs op (AttrUtils.set (σ.attrs op) "_datadump_original_op_names"
      (.list .str) ([] : List String)).2 }, ?_, rfl, rfl, fun p name hname => getInt_record op p hname⟩
    simp only [recordFormats, get_bind_apply, hattr, recordOriginalNames]
    rfl

/-! ## The outcome of a round -/

/-- An input with more than one peer stops the call: the new node cannot be linked to it. -/
theorem insertTransOp_taken (hf : Fed σ.heap x s rest) (g : GraphId) (hd : (σ.heap.op op).Fresh) (hrest : rest ≠ []) :
    ∃ τ, insertTransOp g x (some op) σ = some (false, τ) := by
  obtain ⟨τ, t, a, b, -, -, -, -, -, hpeers, hrun⟩ := insertTransOp_start hf g hd
  have htaken : t.peers x ≠ [] := by rw [hpeers, if_pos rfl]; exact hrest
  refine ⟨{ τ with heap := t }, hrun.trans ?_⟩
  rw [bind_of_eq (onHeap_of_eq (σ := { τ with heap := t }) (addDataEdge_taken htaken))]
  rfl

/-- What a round that succeeds leaves. -/
structure Round (σ τ : TransState M) (g : GraphId) (x s : AnchorId) (op : OpId) (a b : AnchorId) : Prop where
  fed : Fed τ.heap x b []
  hop : (τ.heap.node σ.heap.nodeCount).op = op ∧ (τ.heap.node σ.heap.nodeCount).inDataAnchors = [a] ∧
    (τ.heap.node σ.heap.nodeCount).outDataAnchors = [b]
  counts : τ.heap.nodeCount = σ.heap.nodeCount + 1 ∧ σ.heap.anchorCount ≤ τ.heap.anchorCount
  fresh : σ.heap.anchorCount ≤ a ∧ σ.heap.anchorCount ≤ b
  made : a < τ.heap.anchorCount ∧ b < τ.heap.anchorCount ∧ a ≠ b
  nodes : ∀ m < σ.heap.nodeCount, τ.heap.node m = σ.heap.node m
  ops : ∀ p, p ≠ op → τ.heap.op p = σ.heap.op p
  listed : (τ.heap.graph g).nodes = (σ.heap.graph g).nodes ++ [σ.heap.nodeCount]
  peers : ∀ z, τ.heap.peers z = if z = x then [b] else if z = s then (σ.heap.peers s).erase x ++ [a] else if z = a then [s]
    else if z = b then [x] else σ.heap.peers z
  format : ∀ z, τ.format z = if z < σ.heap.anchorCount then σ.format z else Format.nd
  ints : ∀ p name, name ≠ "_datadump_original_op_names" → τ.getInt p name = σ.getInt p name

/-- The heap of a round before its formats. -/
theorem insertTransOp_linked (hf : Fed σ.heap x s []) (g : GraphId) (hd : (σ.heap.op op).Fresh) :
    ∃ τ a b srcFormat dstFormat, Round σ τ g x s op a b ∧
      insertTransOp g x (some op) σ = recordFormats op a b srcFormat dstFormat τ := by
  obtain ⟨τ, t, a, b, he, hsound, hlayout, hgraph, hop, hpeers, hrun⟩ := insertTransOp_start hf g hd
  obtain ⟨hheldA, hheldB, hkindA, hkindB, hla, hlb, hpeersτ, -, hnoneB⟩ := he.anchors hf.sound
  have hfed := he.fed hf
  have hold : ∀ z, σ.heap.Held z → z < σ.heap.anchorCount := fun z hz => hf.sound.laid.made _ hz.1 _ z hz.2
  have hltX := hold x hf.held.1
  have hltS := hold s hf.held.2
  have hab : a ≠ b := by
    rintro rfl
    rw [hkindA] at hkindB
    cases hkindB
  have hxs : x ≠ s := by
    rintro rfl
    have hkind := hf.kind.symm.trans hf.source
    cases hkind
  have hxa : x ≠ a := Nat.ne_of_lt (Nat.lt_of_lt_of_le hltX hla)
  have hxb : x ≠ b := Nat.ne_of_lt (Nat.lt_of_lt_of_le hltX hlb)
  have hsa : s ≠ a := Nat.ne_of_lt (Nat.lt_of_lt_of_le hltS hla)
  have hsb : s ≠ b := Nat.ne_of_lt (Nat.lt_of_lt_of_le hltS hlb)
  have hfree : t.peers x = [] := by rw [hpeers, if_pos rfl]
  have hb : t.peers b = [] := by
    rw [hpeers, if_neg hxb.symm, if_neg hsb.symm, if_neg hab.symm, ← hpeersτ, hnoneB]
  have hlinked := sameLayout_linked t b x
  have hpeers' : ∀ z, (Anchor.linked t b x).peers z = if z = x then [b] else if z = s then (σ.heap.peers s).erase x ++ [a]
      else if z = a then [s] else if z = b then [x] else σ.heap.peers z := by
    intro z
    simp only [linked_peers, Adjacency.push, update_apply]
    by_cases hzx : z = x
    · subst hzx
      simp [hxb, hfree]
    · by_cases hzb : z = b
      · subst hzb
        simp [hzx, hb, hsb.symm, hab.symm]
      · simp only [hzx, hzb, if_false]
        rw [hpeers, if_neg hzx]
  refine ⟨{ τ with heap := Anchor.linked t b x }, a, b, τ.format s, τ.format x,
    ⟨⟨?_, ?_, ?_, ?_⟩, ?_, ?_, ⟨hla, hlb⟩, ?_, fun m hm => ?_, ?_, ?_, hpeers',
    fun z => ?_, fun p name _ => ?_⟩, ?_⟩
  · exact hsound.linked ((hlayout.held b).mpr hheldB) ((hlayout.held x).mpr hfed.held.1)
  · rw [hpeers', if_pos rfl]
  · exact (hlinked.kind x).trans ((hlayout.kind x).trans hfed.kind)
  · exact (hlinked.kind b).trans ((hlayout.kind b).trans hkindB)
  · have hnode : (Anchor.linked t b x).node = τ.heap.node := hlinked.node.trans hlayout.node
    rw [hnode]
    exact ⟨he.added.op, he.inputs, he.outputs⟩
  · exact ⟨(hlinked.nodeCount.trans hlayout.nodeCount).trans he.added.nodeCount,
      Nat.le_trans he.added.anchors.anchorCount (Nat.le_of_eq (hlinked.anchorCount.trans hlayout.anchorCount).symm)⟩
  · have hcount : (Anchor.linked t b x).anchorCount = τ.heap.anchorCount := hlinked.anchorCount.trans hlayout.anchorCount
    have hmade := he.added.anchors.sound.laid.made
    rw [hcount]
    exact ⟨hmade _ hheldA.1 _ a hheldA.2, hmade _ hheldB.1 _ b hheldB.2, hab⟩
  · have hnode : (Anchor.linked t b x).node = τ.heap.node := hlinked.node.trans hlayout.node
    rw [hnode]
    exact he.added.nodes m hm
  · intro p hp
    have hops : (Anchor.linked t b x).op = τ.heap.op := hop
    rw [hops, he.added.ops p hp, Heap.setOp_op, if_neg hp]
  · have hgraphs : (Anchor.linked t b x).graph = τ.heap.graph := hgraph
    rw [hgraphs, he.added.listed]
    rfl
  · exact congrFun he.format z
  · unfold TransState.getInt
    rw [he.attrs.1]
  · rw [hrun, bind_of_eq (onHeap_of_eq (σ := { τ with heap := t }) (addDataEdge_free hfree))]
    rfl

theorem insertTransOp_named (hf : Fed σ.heap x s []) (g : GraphId) (hd : (σ.heap.op op).Fresh)
    (hboth : ¬ (σ.getInt op "input_format" = none ∨ σ.getInt op "output_format" = none)) :
    ∃ τ, insertTransOp g x (some op) σ = some (false, τ) := by
  obtain ⟨τ, a, b, srcFormat, dstFormat, hround, hrun⟩ := insertTransOp_linked hf g hd
  obtain ⟨hi, ho⟩ := not_or.mp hboth
  obtain ⟨i, hi⟩ := Option.ne_none_iff_exists'.mp hi
  obtain ⟨o, ho⟩ := Option.ne_none_iff_exists'.mp ho
  rw [hrun]
  refine recordFormats_named ((hround.ints op _ (by decide)).trans hi) ((hround.ints op _ (by decide)).trans ho) ?_ hround.fed.kind
  exact hround.fed.sound.symm.mem (by simp [hround.fed.peers])

theorem insertTransOp_unnamed (hf : Fed σ.heap x s []) (g : GraphId) (hd : (σ.heap.op op).Fresh)
    (hone : σ.getInt op "input_format" = none ∨ σ.getInt op "output_format" = none) :
    ∃ τ a b, insertTransOp g x (some op) σ = some (true, τ) ∧ Round σ τ g x s op a b := by
  obtain ⟨τ, a, b, srcFormat, dstFormat, hround, hrun⟩ := insertTransOp_linked hf g hd
  have hone' : τ.getInt op "input_format" = none ∨ τ.getInt op "output_format" = none := by
    rwa [hround.ints op _ (by decide), hround.ints op _ (by decide)]
  obtain ⟨υ, hformats, hheap, hformat, hints⟩ := recordFormats_unnamed (a := a) (b := b) srcFormat dstFormat hone'
  refine ⟨υ, a, b, hrun.trans hformats, ?_⟩
  obtain ⟨h1, h2, h3, h4, h5, h6, h7, h8, h9, h10, h11⟩ := hround
  refine ⟨hheap ▸ h1, hheap ▸ h2, hheap ▸ h3, h4, hheap ▸ h5, hheap ▸ h6, hheap ▸ h7, hheap ▸ h8, hheap ▸ h9, hformat ▸ h10,
    fun p name hname => (hints p name hname).trans (h11 p name hname)⟩

/-! ## All rounds -/

/-- Without descriptors the edge stays. -/
theorem chained_nil (hf : Fed σ.heap x s rest) (g : GraphId) : σ.Chained σ g x s [] [] := by
  have hsx : x ∈ σ.heap.peers s := hf.sound.symm.mem (by simp [hf.peers])
  have hxs : s ∈ σ.heap.peers x := by simp [hf.peers]
  refine ⟨rfl, nofun, nofun, by simp, ⟨?_, perm_cons_erase hxs⟩, fun _ _ _ _ => rfl, fun _ _ => rfl⟩
  exact (perm_cons_erase hsx).trans (perm_append_singleton x _).symm

/-- A round and the chain behind it. -/
theorem Round.chained {υ : TransState M} {hops : List TransHop} (hf : Fed σ.heap x s []) (hr : Round σ τ g x s op a b)
    (hc : τ.Chained υ g x b ops hops) (hnode : ∀ m < τ.heap.nodeCount, υ.heap.node m = τ.heap.node m) :
    σ.Chained υ g x s (op :: ops) (⟨σ.heap.nodeCount, a, b⟩ :: hops) := by
  have hltS : s < σ.heap.anchorCount := hf.sound.laid.made _ hf.held.2.1 _ s hf.held.2.2
  have hltX : x < σ.heap.anchorCount := hf.sound.laid.made _ hf.held.1.1 _ x hf.held.1.2
  have hxs : x ≠ s := by
    rintro rfl
    have hkind := hf.kind.symm.trans hf.source
    cases hkind
  have hmade : σ.heap.nodeCount < τ.heap.nodeCount := by
    rw [hr.counts.1]
    exact Nat.lt_succ_self _
  have hbefore : ∀ z < τ.heap.anchorCount, ∀ p ∈ hops, z ≠ p.input ∧ z ≠ p.output := fun z hz p hp =>
    ⟨Nat.ne_of_lt (Nat.lt_of_lt_of_le hz (hc.fresh p hp).2.1), Nat.ne_of_lt (Nat.lt_of_lt_of_le hz (hc.fresh p hp).2.2)⟩
  have hsb : s ≠ b := Nat.ne_of_lt (Nat.lt_of_lt_of_le hltS hr.fresh.2)
  have hxa : x ≠ a := Nat.ne_of_lt (Nat.lt_of_lt_of_le hltX hr.fresh.1)
  have hsa : s ≠ a := Nat.ne_of_lt (Nat.lt_of_lt_of_le hltS hr.fresh.1)
  have hxb : x ≠ b := Nat.ne_of_lt (Nat.lt_of_lt_of_le hltX hr.fresh.2)
  refine ⟨?_, fun p hp => ?_, fun p hp => ?_, ?_, ⟨?_, ?_, ?_⟩, fun z hzs hzx hz => ?_, fun z hz => ?_⟩
  · rw [map_cons, hc.ops, hnode _ hmade, hr.hop.1]
  · rcases mem_cons.mp hp with rfl | hp
    · rw [hnode _ hmade]
      exact hr.hop.2
    · exact hc.anchors p hp
  · rcases mem_cons.mp hp with rfl | hp
    · exact ⟨Nat.le_refl _, hr.fresh⟩
    · obtain ⟨h1, h2, h3⟩ := hc.fresh p hp
      exact ⟨hmade.le.trans h1, hr.counts.2.trans h2, hr.counts.2.trans h3⟩
  · rw [hc.listed, hr.listed, append_assoc]
    rfl
  · rw [hc.others s hsb hxs.symm (hbefore s (Nat.lt_of_lt_of_le hltS hr.counts.2)), hr.peers, if_neg hxs.symm, if_pos rfl]
  · rw [hc.others a hr.made.2.2 hxa.symm (hbefore a hr.made.1), hr.peers, if_neg hxa.symm, if_neg hsa.symm, if_pos rfl]
  · have hpath := hc.path
    have hb : τ.heap.peers b = [x] := by rw [hr.peers, if_neg hxb.symm, if_neg hsb.symm, if_neg hr.made.2.2.symm, if_pos rfl]
    rw [hr.fed.peers, hb, erase_cons_head, erase_cons_head] at hpath
    rw [hf.peers, erase_cons_head]
    exact hpath
  · obtain ⟨hza, hzb⟩ := hz _ mem_cons_self
    rw [hc.others z hzb hzx fun p hp => hz p (mem_cons_of_mem _ hp), hr.peers, if_neg hzx, if_neg hzs, if_neg hza, if_neg hzb]
  · rw [hc.kept z (Nat.lt_of_lt_of_le hz hr.counts.2), hr.format, if_pos hz]

/-- Where no descriptor names both formats all rounds succeed, and new anchors have the format they are made with. -/
theorem rounds_succeed (g : GraphId) (ops : List OpId) : ∀ {σ : TransState M} {s : AnchorId}, Fed σ.heap x s [] → ops.Nodup →
    (∀ op ∈ ops, (σ.heap.op op).Fresh) →
    (∀ op ∈ ops, σ.getInt op "input_format" = none ∨ σ.getInt op "output_format" = none) →
    ∃ τ hops, Cmd.eachOk (insertTransOp g x) (ops.map some) σ = some (true, τ) ∧ σ.Chained τ g x s ops hops ∧
      (∀ m < σ.heap.nodeCount, τ.heap.node m = σ.heap.node m) ∧
      (ops ≠ [] → ∀ z, σ.heap.anchorCount ≤ z → τ.format z = Format.nd) := by
  induction ops with
  | nil => exact fun {σ s} hf _ _ _ => ⟨σ, [], rfl, chained_nil hf g, fun _ _ => rfl, fun h => absurd rfl h⟩
  | cons op ops ih =>
    intro σ s hf hnodup hfresh hone
    obtain ⟨hnot, hnodup⟩ := nodup_cons.mp hnodup
    obtain ⟨τ, a, b, hrun, hr⟩ := insertTransOp_unnamed hf g (hfresh op mem_cons_self) (hone op mem_cons_self)
    have hops : ∀ p ∈ ops, τ.heap.op p = σ.heap.op p := fun p hp => hr.ops p fun e => hnot (e ▸ hp)
    obtain ⟨υ, hops', hrest, hc, hnode, hformat⟩ := ih hr.fed hnodup
      (fun p hp => (hops p hp).symm ▸ hfresh p (mem_cons_of_mem _ hp)) fun p hp => by
        rw [hr.ints p _ (by decide), hr.ints p _ (by decide)]
        exact hone p (mem_cons_of_mem _ hp)
    refine ⟨υ, _, ?_, Round.chained hf hr hc hnode, fun m hm => ?_, fun _ z hz => ?_⟩
    · rw [map_cons, Cmd.eachOk, bind_of_eq hrun]
      exact hrest
    · rw [hnode m (by rw [hr.counts.1]; exact Nat.lt_succ_of_lt hm), hr.nodes m hm]
    · by_cases hzτ : τ.heap.anchorCount ≤ z
      · by_cases hnil : ops = []
        · subst hnil
          obtain ⟨-, rfl⟩ := of_return hrest
          rw [hr.format, if_neg (Nat.not_lt.mpr hz)]
        · exact hformat hnil z hzτ
      · rw [hc.kept z (Nat.not_le.mp hzτ), hr.format, if_neg (Nat.not_lt.mpr hz)]

/-- A second peer of the input, or a descriptor that names both formats, fails the call. -/
theorem rounds_fail (g : GraphId) (ops : List OpId) : ∀ {σ : TransState M} {s : AnchorId} {rest : List AnchorId},
    Fed σ.heap x s rest → ops.Nodup → (∀ op ∈ ops, (σ.heap.op op).Fresh) →
    (ops ≠ [] ∧ rest ≠ []) ∨ (∃ op ∈ ops, ¬ (σ.getInt op "input_format" = none ∨ σ.getInt op "output_format" = none)) →
    ∃ τ, Cmd.eachOk (insertTransOp g x) (ops.map some) σ = some (false, τ) := by
  induction ops with
  | nil =>
    intro σ s rest _ _ _ hbad
    rcases hbad with ⟨hne, -⟩ | ⟨op, hop, -⟩
    · exact absurd rfl hne
    · cases hop
  | cons op ops ih =>
    intro σ s rest hf hnodup hfresh hbad
    have hstop : (∃ τ, insertTransOp g x (some op) σ = some (false, τ)) →
        ∃ τ, Cmd.eachOk (insertTransOp g x) ((op :: ops).map some) σ = some (false, τ) := by
      rintro ⟨τ, hrun⟩
      refine ⟨τ, ?_⟩
      rw [map_cons, Cmd.eachOk, bind_of_eq hrun]
      rfl
    have hd := hfresh op mem_cons_self
    by_cases hrest : rest = []
    · subst hrest
      by_cases hone : σ.getInt op "input_format" = none ∨ σ.getInt op "output_format" = none
      · obtain ⟨hnot, hnodup⟩ := nodup_cons.mp hnodup
        obtain ⟨τ, a, b, hrun, hr⟩ := insertTransOp_unnamed hf g hd hone
        have hops : ∀ p ∈ ops, τ.heap.op p = σ.heap.op p := fun p hp => hr.ops p fun e => hnot (e ▸ hp)
        obtain ⟨p, hp, hboth⟩ := hbad.resolve_left fun h => h.2 rfl
        have hp' : p ∈ ops := (mem_cons.mp hp).resolve_left fun e => hboth (e ▸ hone)
        obtain ⟨υ, hfail⟩ := ih hr.fed hnodup (fun p hp => (hops p hp).symm ▸ hfresh p (mem_cons_of_mem _ hp))
          (.inr ⟨p, hp', by rwa [hr.ints p _ (by decide), hr.ints p _ (by decide)]⟩)
        refine ⟨υ, ?_⟩
        rw [map_cons, Cmd.eachOk, bind_of_eq hrun]
        exact hfail
      · exact hstop (insertTransOp_named hf g hd hone)
    · exact hstop (insertTransOp_taken hf g hd hrest)

end TransAux

open TransAux

/-- Over fresh descriptors the chain is built if and only if the input has no other peer, unless there is nothing to insert, and
no descriptor names a format but the one anchors are made with, in one attribute. -/
theorem insertTransNode_builds_iff (σ : TransState M) (g : GraphId) (x s : AnchorId) (ops : List OpId) (hs : σ.heap.Sound)
    (hk : σ.heap.kind x = .inData) (hpeer : InDataAnchor.getPeerOutAnchor σ.heap x = some s) (hnodup : ops.Nodup)
    (hfresh : ∀ op ∈ ops, (σ.heap.op op).Fresh) :
    σ.BuildsChain g x s ops ↔ (ops = [] ∨ σ.heap.peers x = [s]) ∧ ∀ op ∈ ops, σ.NamesNone op := by
  obtain ⟨rest, hpeers, hkind⟩ : ∃ rest, σ.heap.peers x = s :: rest ∧ σ.heap.kind s = .outData := by
    unfold InDataAnchor.getPeerOutAnchor at hpeer
    split at hpeer
    · cases hpeer
    · rename_i b l hb
      split at hpeer
      · rename_i hkind
        obtain rfl := Option.some.inj hpeer
        exact ⟨l, hb, hkind⟩
      · cases hpeer
  have hf : Fed σ.heap x s rest := ⟨hs, hpeers, hk, hkind⟩
  constructor
  · rintro ⟨τ, hops, hrun, hc, hformats⟩
    have hone : ∀ op ∈ ops, σ.getInt op "input_format" = none ∨ σ.getInt op "output_format" = none := by
      intro op hop
      by_contra hboth
      obtain ⟨υ, hfail⟩ := rounds_fail g ops hf hnodup hfresh (.inr ⟨op, hop, hboth⟩)
      have heq := hrun.symm.trans hfail
      cases heq
    have hsingle : ops = [] ∨ rest = [] := by
      by_contra hmore
      obtain ⟨υ, hfail⟩ := rounds_fail g ops hf hnodup hfresh (.inl (not_or.mp hmore))
      have heq := hrun.symm.trans hfail
      cases heq
    refine ⟨hsingle.imp_right fun hrest => by rw [hpeers, hrest], fun op hop => ?_⟩
    obtain rfl : rest = [] := hsingle.resolve_left (ne_nil_of_mem hop)
    obtain ⟨υ, _, hrun', -, -, hnd⟩ := rounds_succeed g ops hf hnodup hfresh hone
    obtain rfl : τ = υ := (Prod.mk.inj (Option.some.inj (hrun.symm.trans hrun'))).2
    have hnd := hnd (ne_nil_of_mem hop)
    rw [← hc.ops] at hop
    obtain ⟨p, hp, rfl⟩ := List.mem_map.mp hop
    obtain ⟨-, hin, hout⟩ := hc.fresh p hp
    refine ⟨hone _ (hc.ops ▸ hop), fun f hf => ?_, fun f hf => ?_⟩
    · exact ((hformats p hp).1 f hf).symm.trans (hnd p.input hin)
    · exact ((hformats p hp).2 f hf).symm.trans (hnd p.output hout)
  · rintro ⟨hsingle, hnames⟩
    by_cases hnil : ops = []
    · subst hnil
      exact ⟨σ, [], rfl, chained_nil hf g, nofun⟩
    · obtain rfl : rest = [] := by simpa [hpeers] using hsingle.resolve_left hnil
      obtain ⟨τ, hops, hrun, hc, -, hnd⟩ := rounds_succeed g ops hf hnodup hfresh fun op hop => (hnames op hop).one
      refine ⟨τ, hops, hrun, hc, fun p hp => ?_⟩
      have hname := hnames _ (hc.ops ▸ mem_map_of_mem hp)
      obtain ⟨-, hin, hout⟩ := hc.fresh p hp
      exact ⟨fun f hf => (hnd hnil p.input hin).trans (hname.input f hf).symm,
        fun f hf => (hnd hnil p.output hout).trans (hname.output f hf).symm⟩

namespace TransChainWitness

/-- Messages without content. -/
def plain : AttrMessages where
  TensorDescriptor := Unit
  NamedAttrs := Unit
  GraphDef := Unit
  Graph := Unit
  emptyDescriptor := ()
  newDescriptor := ()
  emptyGraph := ()
  serializeGraph _ _ := (false, ())
  unserializeGraph _ := none

/-- One node feeds another, and a third descriptor is made. -/
def feeding : List LinkCall :=
  [.newOp { opDef := { name := "x", type := "Data" }, outputsDesc := [{}] }, .newNode 0,
    .newOp { opDef := { name := "y", type := "Relu" }, inputsDesc := [{}] }, .newNode 1, .addDataEdge (some 2) (some 5),
    .newOp { opDef := { name := "t", type := "TransData" } }]

def fed : Heap := (LinkCall.runAll feeding).getD .empty

theorem sound_fed : fed.Sound := sound_runAll feeding fed (by decide +kernel) rfl

/-- The objects, with attributes for the descriptor that is not used yet. -/
def fedWith (attrs : OrderedMap String (AttrDef plain)) : TransState plain :=
  { heap := fed, attrs := fun op => { attrMap := some (if op = 2 then attrs else []) } }

theorem fresh_fed : ∀ op ∈ [2], (fed.op op).Fresh := by
  intro op hop
  obtain rfl := mem_singleton.mp hop
  exact ⟨by decide +kernel, by decide +kernel⟩

theorem insertTransNode_builds_fed : (fedWith []).BuildsChain 0 5 2 [2] ↔
    ([2] = ([] : List OpId) ∨ (fedWith []).heap.peers 5 = [2]) ∧ ∀ op ∈ [2], (fedWith []).NamesNone op :=
  insertTransNode_builds_iff (fedWith []) 0 5 2 [2] sound_fed (by decide +kernel) (by decide +kernel) (by decide) fresh_fed

/-- A descriptor that names both formats stops the call after the edges have been changed. -/
theorem insertTransNode_builds_false :
    ¬ ∀ (M : AttrMessages) (σ : TransState M) (g : GraphId) (x s : AnchorId) (ops : List OpId), σ.heap.Sound →
      σ.heap.kind x = .inData → InDataAnchor.getPeerOutAnchor σ.heap x = some s → σ.heap.peers x = [s] → ops.Nodup →
      (∀ op ∈ ops, (σ.heap.op op).Fresh) → σ.BuildsChain g x s ops := by
  intro hall
  obtain ⟨τ, hops, hrun, -, -⟩ := hall plain
    (fedWith [("input_format", .one .i (0 : Int64)), ("output_format", .one .i (1 : Int64))]) 0
    5 2 [2] sound_fed (by decide +kernel) (by decide +kernel) (by decide +kernel) (by decide) fresh_fed
  have hfail : (insertTransNode 0 (some 5) [some 2] (fedWith [("input_format", .one .i (0 : Int64)),
      ("output_format", .one .i (1 : Int64))])).map Prod.fst = some false := by
    decide +kernel
  rw [show [2].map some = [some 2] from rfl] at hrun
  rw [hrun] at hfail
  cases hfail

end TransChainWitness

end Metadef
