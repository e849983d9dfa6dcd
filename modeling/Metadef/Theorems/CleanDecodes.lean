import Metadef.Lemmas.OnnxReading
import Metadef.OnnxAttributes
import Metadef.Theorems.LinkSymmetry

/-!
# Models that are decoded cleanly

The decoder of the open format comes to an outcome, and where it succeeds has made an edge of every input, exactly when no graph among
the nodes is reached without its attribute and, in a model that is read, no node whose inputs name outputs has the name of one before.
-/

namespace Metadef

open List LinkSymmetryAux OnnxReadingAux.Before

open OnnxUtils

/-- Each request that names an output of a node made its edge, as often as it was asked for. -/
def Heap.InputsMade (t : Heap) (pairs : ReadPairs) : Prop :=
  ∀ item ∈ asks pairs, (t.sourceOf (firstNamed pairs) item).isSome → ∃ e, t.edgeOf (firstNamed pairs) item = some e ∧
    (t.peers e.2).count e.1 = ((asks pairs).filterMap (t.edgeOf (firstNamed pairs))).count e

/-- A graph and the graphs among its nodes have, for each message of a node, a node whose inputs made their edges. -/
def Heap.EdgesMade (t : Heap) : Nat → GraphProto → GraphId → Prop
  | 0, _, _ => False
  | depth + 1, .mk _ _ _ node, g => (t.graph g).nodes.map (Node.getName t) = (opProtos node).map NodeProto.name ∧
    t.InputsMade ((opProtos node).zip (t.graph g).nodes) ∧
    List.Forall₂ (t.EdgesMade depth) (subProtos node) (t.graph g).subGraph

namespace OnnxUtils

/-- The messages of nodes in a message, at any depth that is read. -/
def protosWithin : Nat → GraphProto → List (NodeProto GraphProto)
  | 0, _ => []
  | depth + 1, .mk _ _ _ node => opProtos node ++ (subProtos node).flatMap (protosWithin depth)

/-- A descriptor with all that the attributes hold is the one the graph is made with, as far as that goes. -/
structure WholeOf (d : OpDesc) (op : OnnxOpDesc) : Prop where
  name : op.name = d.getName
  type : op.type = d.getType
  id : op.id = d.getId
  inputs : op.inputsDesc.length = d.getAllInputsSize
  outputs : op.outputsDesc.length = d.getOutputsSize

/-- Decoding a model has an outcome: the attributes of its nodes are put into descriptors that are there, and a success has made the
edges of all inputs. -/
structure DecodesCleanly (p : ModelProto) : Prop where
  descs : ∀ q ∈ protosWithin (maxRecursionDepth + 1) p.graph, ∃ op,
    decodeWholeNodeDesc q {} = some ((decodeNodeDesc q).isSome, op) ∧ ∀ d ∈ decodeNodeDesc q, WholeOf d op
  run : ∀ h : Heap, h.Sound → ∃ r t, convertModelProtoToGeModel p h = some (r, t) ∧
    ∀ g, r = some g → t.EdgesMade (maxRecursionDepth + 1) p.graph g

end OnnxUtils

namespace CleanDecodesAux

open Cmd OnnxNodesAux OnnxGraphsAux OnnxMessagesAux OnnxReadingAux StructureAux ModelSerializeImp

variable {t lo hi : Heap} {g : GraphId} {n : NodeId} {ps : List (NodeProto GraphProto)} {ns : List NodeId} {depth : Nat}
  {m : GraphProto} {op : OnnxOpDesc} {attr : AttributeProto GraphProto}

/-! ## Attributes -/

/-- An attribute of a tensor is put into one that is there, or nowhere. -/
theorem decodeNodeAttributeForDesc_spec {d : OpDesc} (attr : AttributeProto GraphProto) (side : String)
    (mutableDesc : OnnxOpDesc → Nat → Option OnnxTensorDesc) {setDesc : OnnxOpDesc → Nat → OnnxTensorDesc → OnnxOpDesc}
    (hset : ∀ op i e, WholeOf d op → WholeOf d (setDesc op i e)) (attrName : String) (index : Int) (hop : WholeOf d op) :
    ∃ op', decodeNodeAttributeForDesc attr side mutableDesc setDesc attrName index op = some ((), op') ∧ WholeOf d op' := by
  unfold decodeNodeAttributeForDesc
  rw [get_bind_apply]
  cases hd : mutableDesc op (index % 2 ^ 32).toNat with
  | none => exact ⟨op, rfl, hop⟩
  | some e =>
    rw [if_neg (by simp)]
    cases descUpdate attr side attrName with
    | none => exact ⟨op, rfl, hop⟩
    | some update => exact ⟨_, rfl, hset op _ _ hop⟩

theorem wholeOf_setInput {d : OpDesc} (op : OnnxOpDesc) (i : Nat) (e : OnnxTensorDesc) (hop : WholeOf d op) :
    WholeOf d (op.setInput i e) :=
  ⟨hop.name, hop.type, hop.id, (length_set ..).trans hop.inputs, hop.outputs⟩

theorem wholeOf_setOutput {d : OpDesc} (op : OnnxOpDesc) (i : Nat) (e : OnnxTensorDesc) (hop : WholeOf d op) :
    WholeOf d (op.setOutput i e) :=
  ⟨hop.name, hop.type, hop.id, hop.inputs, (length_set ..).trans hop.outputs⟩

/-- Every attribute, whatever its name and index, is put into the descriptor. -/
theorem decodeAttributeForOpDesc_spec {d : OpDesc} (attr : AttributeProto GraphProto) (hop : WholeOf d op) :
    ∃ op', decodeAttributeForOpDesc attr op = some ((), op') ∧ WholeOf (decodeNodeAttributeForOpDesc d attr) op' := by
  unfold decodeAttributeForOpDesc decodeNodeAttributeForOpDesc
  cases hparse : parseNameIndex attr.name with
  | some e =>
    obtain ⟨attrName, index⟩ := e
    have hid : attr.name ≠ "id" := by
      intro hid
      rw [hid, show parseNameIndex "id" = none by decide] at hparse
      cases hparse
    rw [if_neg hid]
    show ∃ op', decodeNodeAttributeForOpInAndOutDesc attr attrName index op = some ((), op') ∧ _
    unfold decodeNodeAttributeForOpInAndOutDesc
    split
    · exact decodeNodeAttributeForDesc_spec attr _ _ wholeOf_setInput _ _ hop
    · split
      · exact decodeNodeAttributeForDesc_spec attr _ _ wholeOf_setOutput _ _ hop
      · exact ⟨op, rfl, hop⟩
  | none =>
    refine ⟨_, rfl, ?_⟩
    obtain ⟨hname, htype, hid, hin, hout⟩ := hop
    unfold setNodeAttribute
    by_cases hkey : attr.name = "id"
    · rw [if_pos hkey, if_pos hkey]
      exact ⟨hname, htype, rfl, hin, hout⟩
    · rw [if_neg hkey, if_neg hkey]
      repeat' split
      all_goals exact ⟨hname, htype, hid, hin, hout⟩

theorem decodeAttributes_spec (l : List (AttributeProto GraphProto)) : ∀ {d : OpDesc} {op : OnnxOpDesc}, WholeOf d op →
    ∃ op', decodeAttributes l op = some ((), op') ∧ WholeOf (l.foldl decodeNodeAttributeForOpDesc d) op' := by
  induction l with
  | nil => exact fun {d op} hop => ⟨op, rfl, hop⟩
  | cons attr l ih =>
    intro d op hop
    obtain ⟨mid, hmid, hwhole⟩ := decodeAttributeForOpDesc_spec attr hop
    rw [decodeAttributes, bind_of_eq hmid]
    exact ih hwhole

/-- The tensors an attribute counts are as many as the graph is made with. -/
theorem wholeOf_addCounted (l : List (AttributeProto GraphProto)) : ∀ {d : OpDesc} {op : OnnxOpDesc}, Numbered d →
    WholeOf d op → WholeOf (l.foldl addCounted d) (l.foldl addCountedDescs op) := by
  induction l with
  | nil => exact fun _ hop => hop
  | cons attr l ih =>
    intro d op hd hop
    obtain ⟨hnum, hin, hout, hdef⟩ := addCounted_spec attr hd
    refine ih hnum ?_
    have hadded : addCountedDescs op attr = { op with
        inputsDesc := op.inputsDesc ++ List.replicate (if attr.name = "input_desc_nums" then attr.i.toNat else 0) {}
        outputsDesc := op.outputsDesc ++ List.replicate (if attr.name = "output_desc_nums" then attr.i.toNat else 0) {} } := by
      unfold addCountedDescs
      by_cases h₁ : attr.name = "input_desc_nums" <;> by_cases h₂ : attr.name = "output_desc_nums" <;> simp [h₁, h₂]
    rw [hadded]
    refine ⟨?_, ?_, ?_, ?_, ?_⟩
    · rw [OpDesc.getName, hdef]
      exact hop.name
    · rw [OpDesc.getType, hdef]
      exact hop.type
    · rw [OpDesc.getId, hdef]
      exact hop.id
    · rw [OpDesc.getAllInputsSize, hin, length_append, length_replicate, hop.inputs]
      rfl
    · rw [OpDesc.getOutputsSize, hout, length_append, length_replicate, hop.outputs]
      rfl

/-- The descriptor of a node is read with all its attributes whenever the node is. -/
theorem decodeWholeNodeDesc_spec (p : NodeProto GraphProto) :
    ∃ op, decodeWholeNodeDesc p {} = some ((decodeNodeDesc p).isSome, op) ∧ ∀ d ∈ decodeNodeDesc p, WholeOf d op := by
  unfold decodeWholeNodeDesc decodeNodeDesc
  rw [modify_bind_apply]
  cases afterColon p.opType with
  | none => exact ⟨_, rfl, fun d hd => by cases hd⟩
  | some type =>
    have hstart : WholeOf (OpDesc.make p.name type) { name := p.name, type } := ⟨rfl, rfl, rfl, rfl, rfl⟩
    obtain ⟨op, hop, hwhole⟩ := decodeAttributes_spec p.attributes (wholeOf_addCounted p.attributes (numbered_make p.name type)
      hstart)
    refine ⟨op, ?_, fun d hd => by obtain rfl := Option.some.inj hd; exact hwhole⟩
    dsimp only
    rw [modify_bind_apply, modify_bind_apply, bind_of_eq hop]
    rfl

/-! ## Edges -/

/-- A node whose message has a name of its own, or asks for nothing, gets what its inputs ask for. -/
theorem asks_eq_firstAsks (hlen : ps.length = ns.length)
    (hlead : ps.Pairwise fun q p => q.name = p.name → ∀ s ∈ p.input, parseNameIndex s = none) :
    asks (ps.zip ns) = firstAsks (ps.zip ns) := by
  have hpairs : (ps.zip ns).Pairwise fun e d => e.1.name = d.1.name → ∀ s ∈ d.1.input, parseNameIndex s = none := by
    rw [← map_fst_zip (Nat.le_of_eq hlen)] at hlead
    exact pairwise_map.mp hlead
  rw [firstAsks, asks, asks, flatMap_map]
  refine flatMap_congr fun e he => ?_
  dsimp only
  have hfirst : firstNamed (ps.zip ns) e.1.name = some e.2 ∨ ∀ s ∈ e.1.input, parseNameIndex s = none := by
    obtain ⟨n, hn⟩ := Option.isSome_iff_exists.mp (firstNamed_of_mem he)
    obtain ⟨d, hd, rfl⟩ := Option.map_eq_some_iff.mp hn
    obtain ⟨hname, before, after, hsplit, hnot⟩ := find?_eq_some_iff_append.mp hd
    rw [hsplit] at he hpairs
    rcases mem_append.mp he with he | he
    · simpa using hnot e he
    · rcases mem_cons.mp he with rfl | he
      · exact .inl hn
      · exact .inr ((pairwise_cons.mp (pairwise_append.mp hpairs).2.1).1 e he (by simpa using hname))
  rcases hfirst with hfirst | hnone
  · rw [hfirst]
    rfl
  · rw [(readInputs_eq_nil e.1.input 0).mpr hnone, (readInputs_eq_nil e.1.input 0).mpr hnone]

theorem count_sources (l : List (AnchorId × AnchorId)) (a b : AnchorId) :
    ((l.filter fun d => d.2 = b).map Prod.fst).count a = l.count (a, b) := by
  induction l with
  | nil => rfl
  | cons d l ih =>
    obtain ⟨c, d⟩ := d
    rw [count_cons, ← ih]
    by_cases hd : d = b
    · subst hd
      rw [filter_cons_of_pos (by simp), map_cons, count_cons]
      simp
    · rw [filter_cons_of_neg (by simpa using hd)]
      simp [hd]

/-- A name leads to no node behind the first one that has it. -/
theorem firstNamed_ne (hnd : ns.Nodup) {i j : Nat} (hi : i < (ps.zip ns).length) (hj : j < (ps.zip ns).length) (hij : i < j)
    (hname : (ps.zip ns)[i].1.name = (ps.zip ns)[j].1.name) :
    firstNamed (ps.zip ns) (ps.zip ns)[j].1.name ≠ some (ps.zip ns)[j].2 := by
  intro hfirst
  obtain ⟨d, hd, hdn⟩ := Option.map_eq_some_iff.mp hfirst
  obtain ⟨-, k, hk, rfl, hbefore⟩ := find?_eq_some_iff_getElem.mp hd
  have hki : k ≤ i := by
    by_contra hlt
    have hnot := hbefore i (Nat.lt_of_not_le hlt)
    rw [Bool.not_eq_true', decide_eq_false_iff_not] at hnot
    exact hnot hname
  rw [getElem_zip, getElem_zip] at hdn
  exact absurd ((List.Nodup.getElem_inj_iff hnd).mp hdn) (by omega)

/-- The sources of the links to an input of a node. -/
theorem peers_of_linked (hlen : ps.length = ns.length) (hl : t.FirstLinked (ps.zip ns)) (hn : n ∈ ns) {b : AnchorId}
    (hb : b ∈ t.inAnchors n) : t.peers b = ((firstEdges t (ps.zip ns)).filter fun d => d.2 = b).map Prod.fst := by
  obtain ⟨i, hi, rfl⟩ := mem_iff_getElem.mp hn
  exact hl.peers (ps[i], ns[i]) (mem_iff_getElem.mpr ⟨i, by simp [hi, hlen], getElem_zip⟩) b hb

/-- A node whose request made its edge is the one its name leads to. -/
theorem leads_of_made (hr : PairsRead lo t ps ns) (hl : t.FirstLinked (ps.zip ns)) (hmade : t.InputsMade (ps.zip ns))
    {e : NodeProto GraphProto × NodeId} (he : e ∈ ps.zip ns) {s : String} (hs : s ∈ e.1.input) (hparse : parseNameIndex s ≠ none) :
    firstNamed (ps.zip ns) e.1.name = some e.2 := by
  have hlen := hr.read.length_eq
  have hsome : readInputs e.2 e.1.name e.1.input 0 ≠ [] :=
    fun hnil => hparse ((readInputs_eq_nil e.1.input 0).mp hnil s hs)
  obtain ⟨item, hitem⟩ := exists_mem_of_ne_nil _ hsome
  have hask : item ∈ asks (ps.zip ns) := mem_flatMap.mpr ⟨e, he, hitem⟩
  -- the source was found when the link into the first node of the name was
  have hsource : (t.sourceOf (firstNamed (ps.zip ns)) item).isSome := by
    rw [readInputs_at] at hitem
    obtain ⟨plain, hplain, rfl⟩ := List.mem_map.mp hitem
    have hfirst : redirect (ps.zip ns) plain ∈ firstAsks (ps.zip ns) := by
      rw [firstAsks_eq hlen]
      exact mem_map_of_mem (mem_flatMap.mpr ⟨e.1, (of_mem_zip he).1, hplain⟩)
    obtain ⟨d, hd⟩ := Option.isSome_iff_exists.mp (hl.found _ hfirst)
    obtain ⟨a, ha, -⟩ := Option.bind_eq_some_iff.mp hd
    exact Option.isSome_iff_exists.mpr ⟨a, ha⟩
  obtain ⟨⟨a, b⟩, hedge, hcount⟩ := hmade item hask hsource
  have hdst : item.dstNode = e.2 := (readInputs_mem e.1.input 0 item hitem).1
  have hmadeNode : e.2 < t.nodeCount := (hr.mem he).made
  obtain ⟨-, hin, -⟩ := edgeOf_some hr (hdst ▸ hmadeNode) hedge
  rw [hdst] at hin
  have hthere : 0 < (t.peers b).count a := hcount ▸ count_pos_iff.mpr (mem_filterMap.mpr ⟨item, hask, hedge⟩)
  rw [peers_of_linked hlen hl (of_mem_zip he).2 hin, count_sources] at hthere
  -- the edge into the node is one into the first node of some name
  obtain ⟨-, n, -, ⟨x, hx⟩, hbn⟩ := firstEdges_mem hr (count_pos_iff.mp hthere)
  obtain ⟨d, hd, rfl, rfl⟩ := firstNamed_mem hx
  have hown : e.2 = d.2 := by
    rw [← ((Heap.mem_inAnchors hr.sound.laid hmadeNode).mp hin).2.1]
    exact ((Heap.mem_inAnchors hr.sound.laid (hr.mem hd).made).mp hbn).2.1
  rw [eq_of_mem_zip hr.nodup he hd hown]
  exact hx

/-- The names lead to the nodes that have them, as far as these ask for anything, when each input made its edge. -/
theorem inputsMade_iff (hr : PairsRead lo t ps ns) (hl : t.FirstLinked (ps.zip ns)) :
    t.InputsMade (ps.zip ns) ↔ ps.Pairwise fun q p => q.name = p.name → ∀ s ∈ p.input, parseNameIndex s = none := by
  have hlen := hr.read.length_eq
  constructor
  · intro hmade
    have hpairs : (ps.zip ns).Pairwise fun e d => e.1.name = d.1.name → ∀ s ∈ d.1.input, parseNameIndex s = none := by
      rw [pairwise_iff_getElem]
      intro i j hi hj hij hname s hs
      by_contra hparse
      exact firstNamed_ne hr.nodup hi hj hij hname (leads_of_made hr hl hmade (getElem_mem hj) hs hparse)
    rw [← map_fst_zip (Nat.le_of_eq hlen)]
    exact pairwise_map.mpr hpairs
  · intro hlead item hask _
    have hasks := asks_eq_firstAsks hlen hlead
    rw [hasks] at hask ⊢
    obtain ⟨⟨a, b⟩, he⟩ := Option.isSome_iff_exists.mp (hl.found item hask)
    obtain ⟨-, n, hn, -, hin⟩ := firstEdges_mem hr (mem_filterMap.mpr ⟨item, hask, he⟩)
    refine ⟨(a, b), he, ?_⟩
    rw [peers_of_linked hlen hl hn hin, count_sources]
    rfl

/-- In a graph that was built the inputs made their edges when the names lead to the nodes that ask. -/
theorem edgesMade_iff (hs : t.Sound) (hhi : hi.Before t) : ∀ {depth m g}, Heap.GraphBuilt lo hi t depth m g →
    (t.EdgesMade depth m g ↔ NamesLead depth m) := by
  intro depth
  induction depth with
  | zero => exact fun hb => hb.elim
  | succ depth ih =>
    rintro ⟨name, input, output, node⟩ g ⟨-, hread, hnd, hlinked, hsubs⟩
    have hr : PairsRead lo t (opProtos node) (t.graph g).nodes :=
      ⟨hs, hread.imp fun _ _ hp => ProtoRead.widen hp (Before.refl lo) hhi, hnd⟩
    have hnames : (t.graph g).nodes.map (Node.getName t) = (opProtos node).map NodeProto.name := by
      rw [← forall₂_eq_eq_eq, forall₂_map_left_iff, forall₂_map_right_iff]
      exact hread.flip.imp fun n p hp => hp.name
    have hsub : List.Forall₂ (t.EdgesMade depth) (subProtos node) (t.graph g).subGraph ↔ ∀ m ∈ subProtos node, NamesLead depth m := by
      constructor
      · intro hall m hm
        obtain ⟨i, hi, rfl⟩ := mem_iff_getElem.mp hm
        have hi' : i < (t.graph g).subGraph.length := hsubs.length_eq ▸ hi
        exact (ih (hsubs.get hi hi')).mp (hall.get hi hi')
      · intro hall
        refine forall₂_iff_get.mpr ⟨hsubs.length_eq, fun i hi hi' => ?_⟩
        exact (ih (hsubs.get hi hi')).mpr (hall _ (getElem_mem hi))
    show (_ ∧ _ ∧ _) ↔ (_ ∧ _)
    rw [inputsMade_iff hr hlinked, hsub]
    exact ⟨fun ⟨_, h₂, h₃⟩ => ⟨h₂, h₃⟩, fun ⟨h₂, h₃⟩ => ⟨hnames, h₂, h₃⟩⟩

end CleanDecodesAux

open CleanDecodesAux in
/-- A model is decoded cleanly exactly when no graph among the nodes is reached without its attribute and, if the model is read, no
node whose inputs name outputs has the name of one before it. -/
theorem decodesCleanly_iff (p : ModelProto) : DecodesCleanly p ↔ AttributesThere (maxRecursionDepth + 1) p.graph ∧
    (Decodes (maxRecursionDepth + 1) p.graph → NamesLead (maxRecursionDepth + 1) p.graph) := by
  have hout := fun h hs => OnnxReadingAux.decodeGraph_outcome (maxRecursionDepth + 1) p.graph h hs
  constructor
  · intro hclean
    obtain ⟨r, t, hrun, hedges⟩ := hclean.run .empty sound_empty
    have hempty := hout .empty sound_empty
    refine ⟨?_, fun hread => ?_⟩
    · by_contra hno
      have hnone := hempty.undefined hno
      rw [show convertModelProtoToGeModel p = decodeGraph (maxRecursionDepth + 1) p.graph from rfl, hnone] at hrun
      cases hrun
    · obtain ⟨w, hw, -, hs, hbuilt⟩ := hempty.read hread
      obtain ⟨rfl, rfl⟩ := Prod.mk.inj (Option.some.inj (hw.symm.trans hrun))
      exact (edgesMade_iff hs (refl w) hbuilt).mp (hedges _ rfl)
  · rintro ⟨hthere, hlead⟩
    refine ⟨fun q _ => decodeWholeNodeDesc_spec q, fun h hs => ?_⟩
    by_cases hread : Decodes (maxRecursionDepth + 1) p.graph
    · obtain ⟨w, hw, -, hws, hbuilt⟩ := (hout h hs).read hread
      refine ⟨_, w, hw, fun g hg => ?_⟩
      obtain rfl := Option.some.inj hg
      exact (edgesMade_iff hws (refl w) hbuilt).mpr (hlead hread)
    · obtain ⟨w, hw⟩ := (hout h hs).refused hread hthere
      exact ⟨none, w, hw, fun g hg => by cases hg⟩

namespace CleanDecodesWitness

/-- A graph with a graph among its nodes that has no attribute. -/
def bare : ModelProto := { graph := .mk "g" [] [] [{ name := "s", opType := nodeTypeForSubgraph }] }

/-- Its attribute is read where there is none. -/
theorem decodes_cleanly_false : ¬∀ p : ModelProto, DecodesCleanly p := by
  intro hall
  obtain ⟨r, t, hrun, -⟩ := (hall bare).run .empty sound_empty
  have hnone : convertModelProtoToGeModel bare .empty = none := rfl
  rw [hnone] at hrun
  cases hrun

end CleanDecodesWitness

end Metadef
