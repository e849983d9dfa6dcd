import Metadef.Lemmas.ClosedRemove
import Metadef.Lemmas.GraphIsolation
import Metadef.Lemmas.GraphSteps

/-!
# What removing a node does before it isolates it

The constants that feed the node are unlinked, and no longer listed when nothing is left behind them; the node is taken off the
inputs and the outputs of its name off the outputs. Only then is it isolated.
-/

namespace Metadef

open Cmd Heap LinkAux IsolateAux ComputeGraph SingleLinkAux ClosedAux Function List

namespace TakingAux

variable {h₀ h h' : Heap} {n : NodeId} {A : NodeId → NodeId → Prop} {own : AnchorId → List AnchorId} {a : AnchorId} {g : GraphId}

/-- The lists of a graph are not part of what is tracked. -/
theorem Track.setGraph (ht : Track h₀ n A own h) (g : GraphId) (x : ComputeGraph) : Track h₀ n A own (h.setGraph g x) := by
  obtain ⟨R, hi, hR⟩ := ht.pairs
  exact ⟨⟨R, ⟨GraphSteps.sound_setGraph hi.sound g x, hi.layout.trans ⟨rfl, rfl, rfl, fun _ => rfl, fun _ => rfl, fun _ => rfl⟩,
    hi.directed, hi.away, hi.kept⟩, hR⟩, ht.op, ht.single, ht.own⟩

/-- What is left of the peers of a data input: the first goes when it is the output of a constant. -/
def unconst (h : Heap) : List AnchorId → List AnchorId
  | [] => []
  | s :: l => if h.kind s = .outData ∧ Node.isConst h (h.owner s) = true then l else s :: l

/-- The peers of an anchor of a node whose constants are taken off. -/
def constless (h : Heap) (a : AnchorId) : List AnchorId := if h.kind a = .inData then unconst h (h.peers a) else h.peers a

/-- The inputs and the outputs of a graph are the same, and a node is listed as before. -/
structure SameLists (g : GraphId) (n : NodeId) (h h' : Heap) : Prop where
  inputs : (h'.graph g).inputNodes = (h.graph g).inputNodes
  outputs : (h'.graph g).outputNodesInfo = (h.graph g).outputNodesInfo
  listed : n ∈ (h'.graph g).nodes ↔ n ∈ (h.graph g).nodes

theorem SameLists.refl (g : GraphId) (n : NodeId) (h : Heap) : SameLists g n h h := ⟨rfl, rfl, Iff.rfl⟩

theorem SameLists.trans {h'' : Heap} (h₁ : SameLists g n h h') (h₂ : SameLists g n h' h'') : SameLists g n h h'' :=
  ⟨h₂.inputs.trans h₁.inputs, h₂.outputs.trans h₁.outputs, h₂.listed.trans h₁.listed⟩

/-- Erasing another node from the list of nodes. -/
theorem sameLists_erase {c : NodeId} (hc : c ≠ n) : SameLists g n h (h.setGraph g ((h.graph g).eraseFromNodeList c)) := by
  by_cases hmem : c ∈ (h.graph g).nodes
  · refine ⟨?_, ?_, ?_⟩
    all_goals rw [setGraph_graph, if_pos rfl, eraseFromNodeList, if_pos hmem]
    exact mem_erase_of_ne hc.symm
  · refine ⟨?_, ?_, ?_⟩
    all_goals rw [setGraph_graph, if_pos rfl, eraseFromNodeList, if_neg hmem]

/-- One round over the constants: it succeeds. -/
theorem removeConstInputAt_round (hs : h₀.Sound) (hloop : NoLoop h₀ n) (hn : n < h₀.nodeCount) (g : GraphId)
    (ha : a ∈ h₀.anchorsOf n .inData) (ht : Track h₀ n A own h) :
    ∃ h', removeConstInputAt g a h = some (true, h') ∧ Track h₀ n A (Function.update own a (unconst h₀ (own a))) h' ∧
      SameLists g n h h' := by
  obtain ⟨han, hka⟩ := of_output hs hn ha
  rw [removeConstInputAt, get_bind_apply, InDataAnchor.getPeerOutAnchor, ht.own a han]
  cases hl : own a with
  | nil =>
    refine ⟨h, rfl, ht.congr (fun _ _ => Iff.rfl) fun x _ => ?_, .refl g n h⟩
    rw [unconst, ← hl, update_eq_self]
  | cons s rest =>
    simp only [ht.layout.kind]
    by_cases hks : h₀.kind s = .outData
    · rw [if_pos hks]
      by_cases hconst : Node.isConst h₀ (h₀.owner s) = true
      · have hsa : s ∈ own a := by rw [hl]; exact mem_cons_self
        have hsn : h₀.owner s ≠ n := hloop a s han (ht.kept han hsa)
        obtain ⟨m, hm, htm, -⟩ := ht.unlink hloop han hsa (.inr ⟨rfl, rfl⟩)
        rw [hl, erase_cons_head] at htm
        rw [unconst, if_pos ⟨hks, hconst⟩]
        have hconst' : Node.isConst h (h.owner s) = true := by rw [isConst_of_track ht, ht.layout.owner, hconst]
        have hgraph : m.graph = h.graph := by
          rcases unlink_cases hm with ⟨hfalse, -⟩ | ⟨-, _, _, _, -, -, -, -, rfl⟩
          · cases hfalse
          · rfl
        have hsame : SameLists g n h m := by
          refine ⟨?_, ?_, ?_⟩
          all_goals rw [hgraph]
        simp only [hconst', Bool.not_true, Bool.false_eq_true, if_false]
        have hrun : ∀ t, (if (Node.getOutNodes m (h.owner s)).isEmpty then
            m.setGraph g ((m.graph g).eraseFromNodeList (h.owner s)) else m) = t →
            (do
              if !(← GraphUtils.removeEdge (some s) (some a)) then return false
              modify fun t => if (Node.getOutNodes t (h.owner s)).isEmpty then
                t.setGraph g ((t.graph g).eraseFromNodeList (h.owner s)) else t
              return true : Cmd Heap Bool) h = some (true, t) := by
          rintro _ rfl
          exact (bind_of_eq hm).trans rfl
        by_cases hempty : (Node.getOutNodes m (h.owner s)).isEmpty = true
        · refine ⟨m.setGraph g ((m.graph g).eraseFromNodeList (h.owner s)), hrun _ (if_pos hempty), htm.setGraph g _,
            hsame.trans (sameLists_erase ?_)⟩
          rw [ht.layout.owner]
          exact hsn
        · exact ⟨m, hrun m (if_neg hempty), htm, hsame⟩
      · have hkeep : unconst h₀ (s :: rest) = s :: rest := by rw [unconst, if_neg fun hc => hconst hc.2]
        refine ⟨h, ?_, ht.congr (fun _ _ => Iff.rfl) fun x _ => ?_, .refl g n h⟩
        · have hconst' : Node.isConst h (h.owner s) = false := by
            rw [isConst_of_track ht, ht.layout.owner]
            simpa using hconst
          simp [hconst']
        · rw [hkeep, ← hl, update_eq_self]
    · have hkeep : unconst h₀ (s :: rest) = s :: rest := by rw [unconst, if_neg fun hc => hks hc.1]
      refine ⟨h, by rw [if_neg hks]; rfl, ht.congr (fun _ _ => Iff.rfl) fun x _ => ?_, .refl g n h⟩
      rw [hkeep, ← hl, update_eq_self]

/-- The loop over the constants. -/
theorem removeConstInput_rounds (hs : h₀.Sound) (hloop : NoLoop h₀ n) (hn : n < h₀.nodeCount) (g : GraphId) (ins : List AnchorId)
    (hins : ∀ a ∈ ins, a ∈ h₀.anchorsOf n .inData) (hnodup : ins.Nodup) :
    ∀ {own h}, Track h₀ n A own h → ∃ h', Cmd.eachOk (removeConstInputAt g) ins h = some (true, h') ∧
      Track h₀ n A (fun x => if x ∈ ins then unconst h₀ (own x) else own x) h' ∧ SameLists g n h h' := by
  induction ins with
  | nil => exact fun {own h} ht => ⟨h, rfl, ht.congr (fun _ _ => Iff.rfl) fun x _ => by simp, .refl g n h⟩
  | cons a ins ih =>
    intro own h ht
    obtain ⟨hnot, hnodup⟩ := List.nodup_cons.mp hnodup
    obtain ⟨m, hm, htm, hsame⟩ := removeConstInputAt_round hs hloop hn g (hins a mem_cons_self) ht
    obtain ⟨h', hr, ht', hsame'⟩ := ih (fun x hx => hins x (mem_cons_of_mem a hx)) hnodup htm
    refine ⟨h', (bind_of_eq hm).trans hr, ht'.congr (fun _ _ => Iff.rfl) fun x _ => ?_, hsame.trans hsame'⟩
    by_cases hxa : x = a
    · subst hxa
      simp [hnot]
    · simp [hxa]

/-- Taking a node off the inputs and outputs always comes to an end. -/
theorem removeInputNode_returns (g : GraphId) (n : NodeId) (h : Heap) : ∃ ok, removeInputNode g (some n) h =
    some (ok, h.setGraph g { h.graph g with inputNodes := (h.graph g).inputNodes.erase n }) := by
  have hreturns : ∃ ok t, removeInputNode g (some n) h = some (ok, t) := by
    by_cases hn : n ∈ (h.graph g).inputNodes
    · exact ⟨true, _, by simp [removeInputNode, edit, hn]; rfl⟩
    · exact ⟨false, h, by simp [removeInputNode, hn]⟩
  obtain ⟨ok, t, ht⟩ := hreturns
  exact ⟨ok, removeInputNode_spec ht ▸ ht⟩

theorem removeOutputNode_returns (g : GraphId) (n : NodeId) (h : Heap) : ∃ ok, removeOutputNode g (some n) h =
    some (ok, h.setGraph g { h.graph g with
      outputNodesInfo := (h.graph g).outputNodesInfo.filter fun item => Node.getName h n ≠ Node.getName h item.1 }) :=
  ⟨_, rfl⟩

/-- What is left to be done once the constants are unlinked and the node is off the inputs and outputs. -/
def removeIsolated (this : GraphId) (node : NodeId) : Cmd Heap Bool := do
  if !(← isolateNode node) then return false
  let h ← get
  if node ∉ (h.graph this).nodes then return false
  edit this fun g => g.eraseFromNodeList node
  return true

/-- A node that is not linked to itself comes to be isolated, its constants unlinked. -/
theorem removeNode_prepares (hs : h₀.Sound) (hd : h₀.Directed) (hloop : NoLoop h₀ n) (hn : n < h₀.nodeCount) (g : GraphId) :
    ∃ h, Track h₀ n (fun _ _ => False) (constless h₀) h ∧ removeNode g (some n) h₀ = removeIsolated g n h ∧
      (h.graph g).inputNodes = (h₀.graph g).inputNodes.erase n ∧ (h.graph g).outputNodesInfo =
        (h₀.graph g).outputNodesInfo.filter (fun item => Node.getName h₀ n ≠ Node.getName h₀ item.1) ∧
      (n ∈ (h.graph g).nodes ↔ n ∈ (h₀.graph g).nodes) := by
  obtain ⟨h₁, hr₁, ht₁, hsame⟩ := removeConstInput_rounds hs hloop hn g (h₀.node n).inDataAnchors (fun _ ha => ha)
    (hs.laid.nodup hn .inData) (track_start hs hd n)
  have hconst : removeConstInput g n h₀ = some (true, h₁) := hr₁
  obtain ⟨ok₂, hr₂⟩ := removeInputNode_returns g n h₁
  generalize hh₂ : h₁.setGraph g { h₁.graph g with inputNodes := (h₁.graph g).inputNodes.erase n } = h₂ at hr₂
  obtain ⟨ok₃, hr₃⟩ := removeOutputNode_returns g n h₂
  have hname : Node.getName h₂ = Node.getName h₀ := by
    rw [← hh₂]
    unfold Node.getName Heap.desc
    rw [setGraph_node, setGraph_op, ht₁.layout.node, ht₁.op]
  refine ⟨_, ?_, ((bind_of_eq hconst).trans ((bind_of_eq hr₂).trans (bind_of_eq hr₃))).trans rfl, ?_, ?_, ?_⟩
  · have ht₂ : Track h₀ n (fun _ _ => False) _ h₂ := hh₂ ▸ ht₁.setGraph g _
    refine (ht₂.setGraph g _).congr (fun _ _ => Iff.rfl) fun x hx => ?_
    unfold constless
    by_cases hk : h₀.kind x = .inData
    · rw [if_pos hk]
      by_cases hmem : x ∈ (h₀.node n).inDataAnchors
      · rw [if_pos hmem]
      · -- an anchor the node does not list has no peers
        have hnone : h₀.peers x = [] := List.eq_nil_iff_forall_not_mem.mpr fun b hb => hmem (by
          have hheld := (hs.symm.held hs.peersHeld hb).2
          rwa [hx, hk] at hheld)
        rw [if_neg hmem, hnone]
        rfl
    · have hmem : x ∉ (h₀.node n).inDataAnchors := fun hmem => hk (hs.laid.kind n hn .inData x hmem)
      rw [if_neg hk, if_neg hmem]
  · rw [← hh₂, setGraph_graph, if_pos rfl, setGraph_graph, if_pos rfl, hsame.inputs]
  · rw [hname, setGraph_graph, if_pos rfl, ← hh₂, setGraph_graph, if_pos rfl, hsame.outputs]
  · rw [setGraph_graph, if_pos rfl, ← hh₂, setGraph_graph, if_pos rfl, hsame.listed]

end TakingAux

end Metadef
