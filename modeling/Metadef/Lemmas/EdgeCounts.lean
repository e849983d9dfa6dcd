import Metadef.Edges

/-!
# What sorting counts

The counter of a node starts at the links that come in, less one for each input whose first link closes a loop, and a
visit of a node takes one off for each of its links. Both are related to the links from node to node.
-/

namespace Metadef

open List

open Heap ComputeGraph

namespace EdgeCounts

variable {h : Heap}

/-! ## The links a visit walks over -/

/-- The owners of filtered peers, counted. -/
theorem count_owners (l : List AnchorId) (q : AnchorId → Bool) (v : NodeId) :
    ((l.filter q).map h.owner).count v = l.countP fun b => h.owner b = v && q b := by
  rw [List.count, countP_map, countP_filter]
  refine countP_congr fun b _ => ?_
  simp

/-- The two loops over an output walk over all its peers when these are inputs. -/
theorem count_outDataBlocks (hd : h.Directed) {a : AnchorId} (ha : (h.kind a).isIn = false) (v : NodeId) :
    (outDataBlocks h a).flatten.count v = (h.peers a).countP fun b => h.owner b = v := by
  have hin : ∀ b ∈ h.peers a, (h.kind b).isIn = true := fun b hb => by rw [hd a b hb, ha]; rfl
  unfold outDataBlocks OutDataAnchor.getPeerInDataAnchors OutDataAnchor.getPeerInControlAnchors Anchor.getPeersOf
  simp only [flatten_cons, flatten_nil, append_nil, count_append, count_owners]
  generalize h.peers a = l at hin
  induction l with
  | nil => rfl
  | cons b l ih =>
    have ih := ih fun c hc => hin c (mem_cons_of_mem b hc)
    have hb := hin b mem_cons_self
    simp only [countP_cons]
    rw [← ih]
    cases hk : h.kind b with
    | inData | inControl => simp; omega
    | outData | outControl => rw [hk] at hb; cases hb

/-- A visit of a node walks over each of its links once. -/
theorem count_outBlocks (hl : h.Laid) (hd : h.Directed) {u : NodeId} (hu : u < h.nodeCount) (v : NodeId) :
    (outBlocks h u).flatten.count v = h.linkCount (fun _ _ => true) u v := by
  have hdata : ∀ a ∈ (h.node u).outDataAnchors, (h.kind a).isIn = false := by
    intro a ha
    rw [hl.kind u hu .outData a ha]
    rfl
  unfold outBlocks linkCount outAnchors
  simp only [Heap.anchorsOf, flatten_append, count_append, flatten_cons, flatten_nil,
    append_nil, map_append, sum_append, map_cons, map_nil, sum_singleton, Bool.and_true]
  congr 1
  · generalize (h.node u).outDataAnchors = l at hdata
    induction l with
    | nil => rfl
    | cons a l ih =>
      rw [flatMap_cons, flatten_append, count_append, map_cons, sum_cons,
        count_outDataBlocks hd (hdata a mem_cons_self), ih fun b hb => hdata b (mem_cons_of_mem a hb)]
  · rw [List.count, countP_map]
    refine countP_congr fun b _ => ?_
    simp

/-! ## The number a node waits for -/

/-- The loops a node's inputs close, by their first links. -/
def firstLoops (h : Heap) (l : List AnchorId) : Nat := l.countP (closesLoop h)

/-- A first link that closes a loop is a loop link. -/
theorem closesLoop_iff {b : AnchorId} (hb : h.kind b = .inData) :
    closesLoop h b = true ↔ ∃ a, (h.peers b).head? = some a ∧ h.isLoopLink a b = true := by
  unfold closesLoop InDataAnchor.getPeerOutAnchor isLoopLink
  cases h.peers b with
  | nil => simp
  | cons a l =>
    by_cases ha : h.kind a = .outData
    · simp [ha, hb]
    · simp [ha]

/-- The loop over the data inputs never returns early: an input whose first link closes a loop has links. -/
theorem addInDataEdges_eq (l : List AnchorId) : ∀ size, ∃ n, addInDataEdges h l size = some n ∧
      n + firstLoops h l = size + (l.map fun b => (h.peers b).length).sum := by
  induction l with
  | nil =>
    intro size
    exact ⟨size, rfl, by simp [firstLoops]⟩
  | cons b l ih =>
    intro size
    unfold addInDataEdges firstLoops
    rw [countP_cons, map_cons, sum_cons]
    by_cases hb : closesLoop h b = true
    · have hpos : 0 < (h.peers b).length := by
        unfold closesLoop InDataAnchor.getPeerOutAnchor at hb
        cases hp : h.peers b with
        | nil => simp [hp] at hb
        | cons a l => simp
      obtain ⟨n, hn, hsum⟩ := ih (size + (h.peers b).length - 1)
      refine ⟨n, ?_, ?_⟩
      · simp only [hb, if_true]
        rw [if_neg (by omega), hn]
      · unfold firstLoops at hsum
        rw [if_pos hb]
        omega
    · obtain ⟨n, hn, hsum⟩ := ih (size + (h.peers b).length)
      refine ⟨n, ?_, ?_⟩
      · simp only [hb]
        exact hn
      · unfold firstLoops at hsum
        rw [if_neg hb]
        omega

/-- The number a node waits for, with the loops its inputs close, is that of the links that come in. -/
theorem getInEdgeSize_add (n : NodeId) : getInEdgeSize h n + firstLoops h (h.node n).inDataAnchors = h.inLinks n := by
  obtain ⟨m, hm, hsum⟩ := addInDataEdges_eq (h := h) (h.node n).inDataAnchors 0
  unfold getInEdgeSize inLinks inAnchors
  rw [hm]
  simp only [Heap.anchorsOf, map_append, sum_append, map_cons, map_nil, sum_singleton]
  omega

/-- The loop links that come in at an input. -/
def loopLinks (h : Heap) (b : AnchorId) : Nat := (h.peers b).countP (h.isLoopLink · b)

/-- Only data inputs take loop links. -/
theorem loopLinks_control {b : AnchorId} (hb : h.kind b ≠ .inData) : loopLinks h b = 0 := by
  unfold loopLinks isLoopLink
  simp [hb]

/-- An input closes at most as many loops as loop links come in. -/
theorem firstLoops_le {l : List AnchorId} (hl : ∀ b ∈ l, h.kind b = .inData) : firstLoops h l ≤ (l.map (loopLinks h)).sum := by
  induction l with
  | nil => simp [firstLoops]
  | cons b l ih =>
    have ih := ih fun c hc => hl c (mem_cons_of_mem b hc)
    unfold firstLoops at ih ⊢
    rw [countP_cons, map_cons, sum_cons]
    by_cases hb : closesLoop h b = true
    · obtain ⟨a, ha, hloop⟩ := (closesLoop_iff (hl b mem_cons_self)).mp hb
      have hpos : 0 < loopLinks h b := countP_pos_iff.mpr ⟨a, mem_of_mem_head? ha, hloop⟩
      rw [if_pos hb]
      omega
    · rw [if_neg hb]
      omega

/-- Loop links come first, and one by one, at the inputs of a node. -/
def LoopsFirst (h : Heap) (n : NodeId) : Prop :=
  ∀ b ∈ (h.node n).inDataAnchors, ∀ a ∈ (h.peers b).tail, h.isLoopLink a b = false

instance (n : NodeId) : Decidable (LoopsFirst h n) := inferInstanceAs (Decidable (∀ b ∈ _, _))

/-- Then an input closes as many loops as loop links come in. -/
theorem le_firstLoops {l : List AnchorId} (hl : ∀ b ∈ l, h.kind b = .inData)
    (hfirst : ∀ b ∈ l, ∀ a ∈ (h.peers b).tail, h.isLoopLink a b = false) :
    (l.map (loopLinks h)).sum ≤ firstLoops h l := by
  induction l with
  | nil => simp [firstLoops]
  | cons b l ih =>
    have ih := ih (fun c hc => hl c (mem_cons_of_mem b hc)) fun c hc => hfirst c (mem_cons_of_mem b hc)
    have hb := hfirst b mem_cons_self
    have hiff := closesLoop_iff (hl b mem_cons_self)
    have hle : loopLinks h b ≤ if closesLoop h b = true then 1 else 0 := by
      unfold loopLinks
      cases hp : h.peers b with
      | nil => simp
      | cons a t =>
        rw [hp, tail_cons] at hb
        rw [hp, head?_cons] at hiff
        have htail : t.countP (h.isLoopLink · b) = 0 := countP_eq_zero.mpr fun c hc => by simp [hb c hc]
        rw [countP_cons, htail]
        cases ha : h.isLoopLink a b with
        | false => simp
        | true => simp [hiff.mpr ⟨a, rfl, ha⟩]
    unfold firstLoops at ih ⊢
    rw [countP_cons, map_cons, sum_cons]
    omega

section
variable (hs : h.Sound) (hd : h.Directed) {g : GraphId} (hc : h.ClosedGraph g) (hN : (h.graph g).nodes.Nodup)
include hs hd hc hN

/-- The links that come in are the links ahead and the loop links. -/
theorem inLinks_eq {v : NodeId} (hv : v ∈ (h.graph g).nodes) :
    h.inLinks v = ((h.graph g).nodes.map (h.linkCount (fun a b => !h.isLoopLink a b) · v)).sum +
      ((h.node v).inDataAnchors.map (loopLinks h)).sum := by
  have hvn := hc.made v hv
  have hcontrol : loopLinks h (h.node v).inControlAnchor = 0 := by
    refine loopLinks_control ?_
    rw [hs.laid.kind v hvn .inControl _ mem_cons_self]
    decide
  rw [← sum_linkCount_true hs hd hc hN hv]
  have hloops : ((h.graph g).nodes.map (h.linkCount h.isLoopLink · v)).sum =
      ((h.node v).inDataAnchors.map (loopLinks h)).sum := by
    rw [sum_linkCount hs hd hc hN _ hv]
    unfold inAnchors
    rw [map_append, sum_append]
    change _ + (loopLinks h (h.node v).inControlAnchor + 0) = _
    rw [hcontrol]
    rfl
  rw [← hloops, ← sum_map_add]
  refine congrArg List.sum (map_congr_left fun u _ => ?_)
  exact (linkCount_add_not h.isLoopLink u v).symm

/-- A node waits for all its links ahead. -/
theorem ahead_le_getInEdgeSize {v : NodeId} (hv : v ∈ (h.graph g).nodes) :
    ((h.graph g).nodes.map (h.linkCount (fun a b => !h.isLoopLink a b) · v)).sum ≤ getInEdgeSize h v := by
  have h1 := getInEdgeSize_add (h := h) v
  have h2 := inLinks_eq hs hd hc hN hv
  have h3 := firstLoops_le (h := h) (l := (h.node v).inDataAnchors) fun b hb => hs.laid.kind v (hc.made v hv) .inData b hb
  omega

/-- Where loop links come first, a node waits for nothing else. -/
theorem getInEdgeSize_le_ahead {v : NodeId} (hv : v ∈ (h.graph g).nodes) (hfirst : LoopsFirst h v) :
    getInEdgeSize h v ≤ ((h.graph g).nodes.map (h.linkCount (fun a b => !h.isLoopLink a b) · v)).sum := by
  have h1 := getInEdgeSize_add (h := h) v
  have h2 := inLinks_eq hs hd hc hN hv
  have h3 := le_firstLoops (h := h) (l := (h.node v).inDataAnchors) (fun b hb => hs.laid.kind v (hc.made v hv) .inData b hb) hfirst
  omega

end

end EdgeCounts

end Metadef
