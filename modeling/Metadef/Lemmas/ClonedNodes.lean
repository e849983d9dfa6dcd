import Metadef.CopyGraph
import Metadef.Lemmas.OnnxGraphs

/-!
# Nodes cloned into a graph

Each node of a list is cloned under its name with a suffix, but for the constants without weights. The clones are new, without
links, and known by their names; the originals stay.
-/

namespace Metadef

open List

/-- Two descriptors agree on all but their names and ids and what was written of them. -/
structure OpDesc.SameMembers (op op' : OpDesc) : Prop where
  type : op'.getType = op.getType
  inputsDesc : op'.inputsDesc = op.inputsDesc
  inputNameIdx : op'.inputNameIdx = op.inputNameIdx
  outputsDesc : op'.outputsDesc = op.outputsDesc
  outputNameIdx : op'.outputNameIdx = op.outputNameIdx
  optionalInputNames : op'.optionalInputNames = op.optionalInputNames

instance (op op' : OpDesc) : Decidable (op.SameMembers op') :=
  decidable_of_iff (op'.getType = op.getType ∧ op'.inputsDesc = op.inputsDesc ∧ op'.inputNameIdx = op.inputNameIdx ∧
      op'.outputsDesc = op.outputsDesc ∧ op'.outputNameIdx = op.outputNameIdx ∧ op'.optionalInputNames = op.optionalInputNames)
    ⟨fun ⟨h₁, h₂, h₃, h₄, h₅, h₆⟩ => ⟨h₁, h₂, h₃, h₄, h₅, h₆⟩, fun h => ⟨h.1, h.2, h.3, h.4, h.5, h.6⟩⟩

/-- A node made as another under its name with a suffix. -/
structure Heap.NodeCloned (namePrefix : String) (h t : Heap) (n n' : NodeId) : Prop where
  made : n' < t.nodeCount
  opMade : (t.node n').op < t.opCount
  name : Node.getName t n' = Node.getName h n ++ namePrefix
  desc : (h.desc n).SameMembers (t.desc n')
  inputs : (t.node n').inDataAnchors.length = (h.desc n).getAllInputsSize
  outputs : (t.node n').outDataAnchors.length = (h.desc n).getOutputsSize

/-- The nodes cloned so far into a graph that lists no others: they are new, and known by name. -/
structure Heap.NodesCloned (namePrefix : String) (h t : Heap) (g : GraphId) (nodes : List NodeId)
    (nodeMap : OrderedMap String NodeId) : Prop where
  grown : Heap.Grown g h t
  sound : t.Sound
  peers : t.peers = h.peers
  listed : t.graph g = { h.graph g with nodes := (t.graph g).nodes, directNodesSize := (t.graph g).directNodesSize }
  cloned : List.Forall₂ (h.NodeCloned namePrefix t) nodes (t.graph g).nodes
  fresh : ∀ n ∈ (t.graph g).nodes, h.nodeCount ≤ n ∧ ∀ k, ∀ a ∈ t.anchorsOf n k, h.anchorCount ≤ a
  nodup : (t.graph g).nodes.Nodup
  found : ∀ e ∈ nodes.zip (t.graph g).nodes, nodeMap.find (Node.getName h e.1 ++ namePrefix) = some e.2
  known : ∀ s n, nodeMap.find s = some n → ∃ e ∈ nodes.zip (t.graph g).nodes, Node.getName h e.1 ++ namePrefix = s ∧ e.2 = n

/-- Whether a node is cloned: it is no constant, or has weights. -/
def Heap.isCloned (hasWeights : NodeId → Bool) (h : Heap) (n : NodeId) : Bool := !(Node.isConst h n && !hasWeights n)

namespace ClonedNodesAux

open Cmd GraphUtils StructureAux NewNodesAux OnnxGraphsAux

variable {hasWeights : NodeId → Bool} {namePrefix : String} {h t u v : Heap} {g : GraphId} {n n' : NodeId} {nodes : List NodeId}
  {nodeMap nodeMap' : OrderedMap String NodeId}

theorem append_inj {s s' : String} (he : s ++ namePrefix = s' ++ namePrefix) : s = s' := by
  have hl := congrArg String.toList he
  rw [String.toList_append, String.toList_append] at hl
  exact String.toList_inj.mp (append_cancel_right hl)

/-! ## Making a clone -/

theorem NodeCloned.grown (hn : h.NodeCloned namePrefix t n n') (hg : Heap.Grown g t v) : h.NodeCloned namePrefix v n n' := by
  have hnode := hg.node n' hn.made
  refine ⟨Nat.lt_of_lt_of_le hn.made hg.nodeCount, ?_, ?_, ?_, ?_, ?_⟩
  · rw [hnode]
    exact Nat.lt_of_lt_of_le hn.opMade hg.opCount
  · rw [getName_congr (Grown.desc hg hn.made hn.opMade)]
    exact hn.name
  · rw [Grown.desc hg hn.made hn.opMade]
    exact hn.desc
  · rw [hnode]
    exact hn.inputs
  · rw [hnode]
    exact hn.outputs

/-- The descriptor of a node added over a new descriptor. -/
theorem addOpNode_desc (hs : h.Sound) {op : OpDesc} (hr : ComputeGraph.addOpNode g (some h.opCount) (LinkCall.makeOp op h) =
    some (some h.nodeCount, t)) : ∃ i, t.desc h.nodeCount = op.setId i := by
  have hsound : (LinkCall.makeOp op h).Sound := hs.of_anchors rfl rfl (by funext m k; cases k <;> rfl) rfl
  obtain ⟨t', hrun, ha⟩ := addOpNode_adds hsound g h.opCount
  obtain rfl := (Prod.mk.inj (Option.some.inj (hrun.symm.trans hr))).2
  obtain ⟨i, hi⟩ := ha.desc
  refine ⟨i, ?_⟩
  rw [Heap.desc, show (t'.node h.nodeCount).op = h.opCount from ha.op, hi]
  simp [LinkCall.makeOp]

/-- Cloning one more node. -/
theorem NodesCloned.next (hd : h.NodesCloned namePrefix t g nodes nodeMap) {copy : OpDesc} (hcopy : (h.desc n).SameMembers copy)
    (hnew : Node.getName h n ∉ nodes.map (Node.getName h)) :
    ∃ v, ComputeGraph.addOpNode g (some t.opCount)
        (LinkCall.makeOp (copy.setName (Node.getName h n ++ namePrefix)) t) = some (some t.nodeCount, v) ∧
      h.NodesCloned namePrefix v g (nodes ++ [n]) (nodeMap.assign (Node.getName h n ++ namePrefix) t.nodeCount) ∧
      Heap.Grown g t v ∧ (v.graph g).nodes = (t.graph g).nodes ++ [t.nodeCount] ∧
      h.NodeCloned namePrefix v n t.nodeCount := by
  obtain ⟨v, hrun, hgrown, hsound, hpeers, hgraphs, hgraph, hmade, hopMade, hvname, -, hvin, hvout, hvnew⟩ :=
    addOpNode_spec hd.sound (copy.setName (Node.getName h n ++ namePrefix)) g
  have hnodes : (v.graph g).nodes = (t.graph g).nodes ++ [t.nodeCount] := by rw [hgraph]; rfl
  have hlen := hd.cloned.length_eq
  have hzip : (nodes ++ [n]).zip (v.graph g).nodes = nodes.zip (t.graph g).nodes ++ [(n, t.nodeCount)] := by
    rw [hnodes, zip_append hlen]
    rfl
  have hdesc : (h.desc n).SameMembers (v.desc t.nodeCount) := by
    obtain ⟨i, hi⟩ := addOpNode_desc hd.sound hrun
    rw [hi]
    exact ⟨hcopy.type, hcopy.inputsDesc, hcopy.inputNameIdx, hcopy.outputsDesc, hcopy.outputNameIdx, hcopy.optionalInputNames⟩
  have hclone : h.NodeCloned namePrefix v n t.nodeCount :=
    ⟨hmade, hopMade, hvname, hdesc, hvin.trans (congrArg List.length hcopy.inputsDesc),
      hvout.trans (congrArg List.length hcopy.outputsDesc)⟩
  refine ⟨v, hrun, ⟨Grown.trans hd.grown hgrown, hsound, hpeers.trans hd.peers, ?_, ?_, ?_, ?_, ?_, ?_⟩, hgrown, hnodes, hclone⟩
  · rw [hgraph, hd.listed]
    rfl
  · rw [hnodes]
    exact rel_append (hd.cloned.imp fun _ _ hc => NodeCloned.grown hc hgrown) (.cons hclone .nil)
  · intro m hm
    rw [hnodes, mem_append, mem_singleton] at hm
    rcases hm with hm | rfl
    · obtain ⟨hold, hanchors⟩ := hd.fresh m hm
      obtain ⟨x, -, hc⟩ := exists_of_forall₂ hd.cloned.flip hm
      refine ⟨hold, fun k a ha => hanchors k a ?_⟩
      rwa [Grown.anchorsOf hgrown hc.made] at ha
    · exact ⟨hd.grown.nodeCount, fun k a ha => hd.grown.anchorCount.trans (hvnew k a ha)⟩
  · rw [hnodes]
    refine nodup_append.mpr ⟨hd.nodup, nodup_singleton _, fun a ha b hb hab => ?_⟩
    obtain rfl := mem_singleton.mp hb
    obtain ⟨x, -, hc⟩ := exists_of_forall₂ hd.cloned.flip ha
    exact absurd hab (Nat.ne_of_lt hc.made)
  · intro e he
    rw [hzip, mem_append, mem_singleton] at he
    rw [OrderedMap.find_assign]
    rcases he with he | rfl
    · have hne : Node.getName h e.1 ++ namePrefix ≠ Node.getName h n ++ namePrefix := fun hs =>
        hnew (append_inj hs ▸ mem_map_of_mem (of_mem_zip he).1)
      rw [if_neg hne]
      exact hd.found e he
    · rw [if_pos rfl]
  · intro s m hm
    rw [OrderedMap.find_assign] at hm
    rw [hzip]
    split at hm
    · rename_i hs
      exact ⟨(n, t.nodeCount), by simp, hs.symm, Option.some.inj hm⟩
    · obtain ⟨e, he, hes⟩ := hd.known s m hm
      exact ⟨e, mem_append_left _ he, hes⟩

/-! ## The loop -/

/-- The vectors hold what the caller passed, and the clones of the types they are for. -/
structure VectorsFilled (inputNodes outputNodes : List NodeId) (g : GraphId) (t : Heap) (clones : Clones) : Prop where
  inputs : clones.inputNodes = inputNodes ++ (t.graph g).nodes.filter fun m => Node.getType t m = "Data"
  outputs : clones.outputNodes = outputNodes ++ (t.graph g).nodes.filter fun m => Node.getType t m = "NetOutput"

variable {inputNodes outputNodes : List NodeId} {clones : Clones}

/-- One more clone at the end of the nodes, and of those of a type when it is of the type. -/
theorem filter_type_next (hd : h.NodesCloned namePrefix t g nodes nodeMap) (hgrown : Heap.Grown g t v)
    (hnodes : (v.graph g).nodes = (t.graph g).nodes ++ [n']) (hc : h.NodeCloned namePrefix v n n') (type : String) :
    (v.graph g).nodes.filter (fun m => Node.getType v m = type) =
      ((t.graph g).nodes.filter fun m => Node.getType t m = type) ++ if Node.getType h n = type then [n'] else [] := by
  have hold : (t.graph g).nodes.filter (fun m => Node.getType v m = type) =
      (t.graph g).nodes.filter fun m => Node.getType t m = type := by
    refine filter_congr fun m hm => ?_
    obtain ⟨x, -, hc⟩ := exists_of_forall₂ hd.cloned.flip hm
    rw [getType_congr (Grown.desc hgrown hc.made hc.opMade)]
  rw [hnodes, filter_append, hold, filter_singleton, show Node.getType v n' = Node.getType h n from hc.desc.type]
  simp

/-- A round of the loop. -/
theorem cloneNode_eq (hasWeights : NodeId → Bool) (hd : h.NodesCloned namePrefix t g nodes clones.allNewNodes)
    (hn : n < h.nodeCount) (hop : (h.node n).op < h.opCount) {copy : OpDesc} (hcopy : copyDesc (h.desc n) = some copy) :
    cloneNode hasWeights namePrefix g n clones t =
      if copy.getOutputsSize < (h.node n).outDataAnchors.length then some (none, t)
      else if h.isCloned hasWeights n then (do
        modify (LinkCall.makeOp (copy.setName (Node.getName h n ++ namePrefix)))
        let some node ← ComputeGraph.addOpNode g (some t.opCount) | return none
        return some
          { allNewNodes := clones.allNewNodes.assign (Node.getName h n ++ namePrefix) node
            inputNodes := if copy.getType = "Data" then clones.inputNodes ++ [node] else clones.inputNodes
            outputNodes := if copy.getType = "NetOutput" then clones.outputNodes ++ [node] else clones.outputNodes } :
          Cmd Heap (Option Clones)) t
      else some (some clones, t) := by
  have hdesc : t.desc n = h.desc n := Grown.desc hd.grown hn hop
  have hnode : t.node n = h.node n := hd.grown.node n hn
  have hconst : Node.isConst t n = Node.isConst h n := by simp only [Node.isConst, getType_congr hdesc]
  rw [cloneNode, get_bind_apply, hdesc, hcopy, hnode, hconst, getName_congr hdesc]
  by_cases hout : copy.getOutputsSize < (h.node n).outDataAnchors.length
  · rw [if_pos hout]
    exact congrFun (if_pos hout) t
  · rw [if_neg hout]
    refine (congrFun (if_neg hout) t).trans ?_
    cases hk : h.isCloned hasWeights n with
    | true =>
      rw [if_pos rfl]
      exact congrFun (if_neg (by simpa [Heap.isCloned, ← Bool.not_eq_true, imp_iff_not_or] using hk)) t
    | false =>
      rw [if_neg Bool.false_ne_true]
      exact congrFun (if_pos (by simpa [Heap.isCloned] using hk)) t

/-- A round clones a node that is to be cloned, when its outputs fit. -/
theorem cloneNode_clones (hasWeights : NodeId → Bool) (hd : h.NodesCloned namePrefix t g nodes clones.allNewNodes)
    (hv : VectorsFilled inputNodes outputNodes g t clones) (hn : n < h.nodeCount) (hop : (h.node n).op < h.opCount)
    {copy : OpDesc} (hcopy : copyDesc (h.desc n) = some copy) (hsame : (h.desc n).SameMembers copy)
    (hnew : Node.getName h n ∉ nodes.map (Node.getName h))
    (hfits : (h.node n).outDataAnchors.length ≤ (h.desc n).getOutputsSize) :
    ∃ clones' v, cloneNode hasWeights namePrefix g n clones t = some (some clones', v) ∧
      h.NodesCloned namePrefix v g (nodes ++ [n].filter (h.isCloned hasWeights)) clones'.allNewNodes ∧
      VectorsFilled inputNodes outputNodes g v clones' := by
  have hsize : copy.getOutputsSize = (h.desc n).getOutputsSize := congrArg List.length hsame.outputsDesc
  rw [cloneNode_eq hasWeights hd hn hop hcopy, hsize, if_neg (Nat.not_lt.mpr hfits), show copy.getType =
    Node.getType h n from hsame.type]
  cases hk : h.isCloned hasWeights n with
  | false => exact ⟨clones, t, by simp, by simpa [hk] using hd, hv⟩
  | true =>
    obtain ⟨v, hrun, hd', hgrown, hnodes, hc⟩ := NodesCloned.next hd hsame hnew
    have hvector : ∀ type : String, ∀ acc vector : List NodeId,
        vector = acc ++ ((t.graph g).nodes.filter fun m => Node.getType t m = type) →
        (if Node.getType h n = type then vector ++ [t.nodeCount] else vector) =
          acc ++ ((v.graph g).nodes.filter fun m => Node.getType v m = type) := by
      intro type acc vector hvec
      rw [filter_type_next hd hgrown hnodes hc type, hvec]
      split <;> simp
    have hkept : nodes ++ [n].filter (h.isCloned hasWeights) = nodes ++ [n] := by simp [hk]
    rw [if_pos rfl, modify_bind_apply, bind_of_eq hrun, hkept]
    exact ⟨_, v, rfl, hd', ⟨hvector _ _ _ hv.inputs, hvector _ _ _ hv.outputs⟩⟩

/-- Cloning the nodes of a list goes well when no node has an output that its descriptor lacks. Then each is cloned but for the
constants without weights. -/
theorem cloneNodes_spec (l : List NodeId) (hmade : ∀ n ∈ l, n < h.nodeCount ∧ (h.node n).op < h.opCount)
    (hcopy : ∀ n ∈ l, ∃ copy ∈ copyDesc (h.desc n), (h.desc n).SameMembers copy) : ∀ {nodes : List NodeId} {clones : Clones}
      {t : Heap},
    h.NodesCloned namePrefix t g nodes clones.allNewNodes → VectorsFilled inputNodes outputNodes g t clones →
    ((nodes ++ l).map (Node.getName h)).Nodup →
    ∃ r v, cloneNodes hasWeights namePrefix g l clones t = some (r, v) ∧
      (r.isSome ↔ ∀ n ∈ l, (h.node n).outDataAnchors.length ≤ (h.desc n).getOutputsSize) ∧
      ∀ clones' ∈ r, h.NodesCloned namePrefix v g (nodes ++ l.filter (h.isCloned hasWeights)) clones'.allNewNodes ∧
        VectorsFilled inputNodes outputNodes g v clones' := by
  induction l with
  | nil =>
    intro nodes clones t hd hv _
    refine ⟨some clones, t, rfl, by simp, ?_⟩
    intro c hc
    obtain rfl := Option.some.inj hc
    exact ⟨by simpa using hd, hv⟩
  | cons n l ih =>
    intro nodes clones t hd hv hnames
    obtain ⟨hn, hop⟩ := hmade n mem_cons_self
    obtain ⟨copy, hcopied, hsame⟩ := hcopy n mem_cons_self
    by_cases hfits : (h.node n).outDataAnchors.length ≤ (h.desc n).getOutputsSize
    · have hnew : Node.getName h n ∉ nodes.map (Node.getName h) := by
        rw [map_append, map_cons] at hnames
        exact fun hmem => (nodup_append.mp hnames).2.2 _ hmem _ mem_cons_self rfl
      obtain ⟨clones', u, hrun, hd', hv'⟩ :=
        cloneNode_clones hasWeights hd hv hn hop hcopied hsame hnew hfits
      have hsub : (nodes ++ [n].filter (h.isCloned hasWeights) ++ l).Sublist (nodes ++ n :: l) := by
        rw [append_assoc]
        exact (List.Sublist.refl nodes).append (filter_sublist.append (List.Sublist.refl l))
      obtain ⟨r, v, hloop, hsome, hr⟩ := ih (fun m hm => hmade m (mem_cons_of_mem n hm))
        (fun m hm => hcopy m (mem_cons_of_mem n hm)) hd' hv' (hnames.sublist (hsub.map _))
      refine ⟨r, v, by rw [cloneNodes, bind_of_eq hrun]; exact hloop, ?_, fun c hc => ?_⟩
      · rw [hsome, forall_mem_cons]
        exact (and_iff_right hfits).symm
      · have hkept : nodes ++ (n :: l).filter (h.isCloned hasWeights) =
            nodes ++ [n].filter (h.isCloned hasWeights) ++ l.filter (h.isCloned hasWeights) := by
          rw [append_assoc, ← filter_append]
          rfl
        rw [hkept]
        exact hr c hc
    · have hround := cloneNode_eq hasWeights hd hn hop hcopied
      have hsize : copy.getOutputsSize = (h.desc n).getOutputsSize := congrArg List.length hsame.outputsDesc
      rw [hsize, if_pos (Nat.lt_of_not_le hfits)] at hround
      refine ⟨none, t, by rw [cloneNodes, bind_of_eq hround]; rfl, ?_, fun c hc => by cases hc⟩
      exact iff_of_false Bool.false_ne_true fun hall => hfits (hall n mem_cons_self)

end ClonedNodesAux

end Metadef
