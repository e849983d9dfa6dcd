import Metadef.TopoSort
import Metadef.WellFormed

/-!
# Edges between nodes

A node has an edge to another when one of its outputs is linked to an input of the other. Edges are told apart by a
condition on the two anchors; sorting sets the data edges out of nodes that close a loop apart from the others.
-/

namespace Metadef

open List

/-- An edge by the names of its nodes and the classes and indices of its anchors. -/
structure EdgeName where
  source : String
  sourceKind : AnchorKind
  sourceIdx : Int
  dest : String
  destKind : AnchorKind
  destIdx : Int
  deriving DecidableEq

namespace Heap

variable (h : Heap)

/-- The anchors edges of a node leave by. -/
def outAnchors (n : NodeId) : List AnchorId := h.anchorsOf n .outData ++ h.anchorsOf n .outControl

/-- The anchors edges of a node come in by. -/
def inAnchors (n : NodeId) : List AnchorId := h.anchorsOf n .inData ++ h.anchorsOf n .inControl

/-- Each link joins an output and an input. -/
def Directed : Prop := ∀ a, ∀ b ∈ h.peers a, (h.kind b).isIn = !(h.kind a).isIn

/-- The edges whose anchors meet a condition. -/
def Edge (r : AnchorId → AnchorId → Bool) (u v : NodeId) : Prop :=
  ∃ a, ∃ b ∈ h.peers a, (h.kind a).isIn = false ∧ h.owner a = u ∧ h.owner b = v ∧ r a b = true

/-- The edges of any kind. -/
def AnyEdge (u v : NodeId) : Prop := h.Edge (fun _ _ => true) u v

/-- How many links from a node to another meet a condition. -/
def linkCount (r : AnchorId → AnchorId → Bool) (u v : NodeId) : Nat :=
  ((h.outAnchors u).map fun a => (h.peers a).countP fun b => h.owner b = v && r a b).sum

/-- How many links come in at a node. -/
def inLinks (n : NodeId) : Nat := ((h.inAnchors n).map fun b => (h.peers b).length).sum

/-- A data link out of a node that closes a loop. -/
def isLoopLink (a b : AnchorId) : Bool :=
  h.kind a = .outData && h.kind b = .inData && Node.isNextIteration h (h.owner a)

/-- An edge sorting has to respect. -/
def Ahead (u v : NodeId) : Prop := h.Edge (fun a b => !h.isLoopLink a b) u v

/-- A data edge out of a node that closes a loop. -/
def LoopEdge (u v : NodeId) : Prop := h.Edge h.isLoopLink u v

/-- The nodes of a graph exist, and their links stay among them. -/
structure ClosedGraph (g : GraphId) : Prop where
  made : ∀ n ∈ (h.graph g).nodes, n < h.nodeCount
  inside : ∀ a, h.owner a ∈ (h.graph g).nodes → ∀ b ∈ h.peers a, h.owner b ∈ (h.graph g).nodes

/-- The source of a data edge that closes a loop comes after its target along the other edges. -/
def LoopsClosed (g : GraphId) : Prop :=
  ∀ w ∈ (h.graph g).nodes, ∀ v, h.LoopEdge w v → Relation.ReflTransGen h.Ahead v w

/-- The index of an anchor, that of control anchors minus one. -/
def anchorIdx (a : AnchorId) : Int := if (h.kind a).isData then (h.anchor a).idx else -1

def edgeName (a b : AnchorId) : EdgeName :=
  { source := Node.getName h (h.owner a), sourceKind := h.kind a, sourceIdx := h.anchorIdx a
    dest := Node.getName h (h.owner b), destKind := h.kind b, destIdx := h.anchorIdx b }

/-! ## Counting links -/

section
variable {h}

variable {n u v : NodeId} {a : AnchorId} {r : AnchorId → AnchorId → Bool} {g : GraphId}

theorem mem_outAnchors (hl : h.Laid) (hn : n < h.nodeCount) :
    a ∈ h.outAnchors n ↔ h.Held a ∧ h.owner a = n ∧ (h.kind a).isIn = false := by
  unfold outAnchors
  rw [mem_append]
  constructor
  · rintro (ha | ha)
    · exact ⟨hl.held hn ha, hl.owner n hn _ a ha, by rw [hl.kind n hn _ a ha]; rfl⟩
    · exact ⟨hl.held hn ha, hl.owner n hn _ a ha, by rw [hl.kind n hn _ a ha]; rfl⟩
  · rintro ⟨⟨-, ha⟩, rfl, hk⟩
    cases hkind : h.kind a with
    | outData => exact .inl (hkind ▸ ha)
    | outControl => exact .inr (hkind ▸ ha)
    | inData | inControl => rw [hkind] at hk; cases hk

theorem mem_inAnchors (hl : h.Laid) (hn : n < h.nodeCount) :
    a ∈ h.inAnchors n ↔ h.Held a ∧ h.owner a = n ∧ (h.kind a).isIn = true := by
  unfold inAnchors
  rw [mem_append]
  constructor
  · rintro (ha | ha)
    · exact ⟨hl.held hn ha, hl.owner n hn _ a ha, by rw [hl.kind n hn _ a ha]; rfl⟩
    · exact ⟨hl.held hn ha, hl.owner n hn _ a ha, by rw [hl.kind n hn _ a ha]; rfl⟩
  · rintro ⟨⟨-, ha⟩, rfl, hk⟩
    cases hkind : h.kind a with
    | inData => exact .inl (hkind ▸ ha)
    | inControl => exact .inr (hkind ▸ ha)
    | outData | outControl => rw [hkind] at hk; cases hk

/-- The anchors of a node of two classes are distinct. -/
theorem nodup_anchorsOf_append (hl : h.Laid) (hn : n < h.nodeCount) {k k' : AnchorKind} (hk : k ≠ k') :
    (h.anchorsOf n k ++ h.anchorsOf n k').Nodup := by
  refine nodup_append.mpr ⟨hl.nodup hn k, hl.nodup hn k', fun a ha b hb hab => hk ?_⟩
  subst hab
  exact (hl.kind n hn k a ha).symm.trans (hl.kind n hn k' a hb)

theorem nodup_inAnchors (hl : h.Laid) (hn : n < h.nodeCount) : (h.inAnchors n).Nodup :=
  nodup_anchorsOf_append hl hn (by decide)

theorem nodup_outAnchors (hl : h.Laid) {N : List NodeId} (hN : N.Nodup) (hmade : ∀ n ∈ N, n < h.nodeCount) :
    (N.flatMap h.outAnchors).Nodup := by
  refine nodup_flatMap.mpr ⟨fun n hn => nodup_anchorsOf_append hl (hmade n hn) (by decide), ?_⟩
  refine hN.imp_of_mem fun {m n} hm hn hmn a ha ha' => hmn ?_
  exact ((mem_outAnchors hl (hmade m hm)).mp ha).2.1.symm.trans ((mem_outAnchors hl (hmade n hn)).mp ha').2.1

/-- The anchor an edge leaves by is one of its source. -/
theorem edge_iff (hs : h.Sound) (hu : u < h.nodeCount) :
    h.Edge r u v ↔ ∃ a ∈ h.outAnchors u, ∃ b ∈ h.peers a, h.owner b = v ∧ r a b = true := by
  constructor
  · rintro ⟨a, b, hb, hk, ha, hv, hr⟩
    exact ⟨a, (mem_outAnchors hs.laid hu).mpr ⟨hs.symm.held hs.peersHeld hb, ha, hk⟩, b, hb, hv, hr⟩
  · rintro ⟨a, ha, b, hb, hv, hr⟩
    obtain ⟨-, howner, hk⟩ := (mem_outAnchors hs.laid hu).mp ha
    exact ⟨a, b, hb, hk, howner, hv, hr⟩

/-- A link that meets a condition makes an edge, and conversely. -/
theorem linkCount_pos (hs : h.Sound) (hu : u < h.nodeCount) : 0 < h.linkCount r u v ↔ h.Edge r u v := by
  rw [edge_iff hs hu]
  unfold linkCount
  rw [Nat.pos_iff_ne_zero, Ne, sum_eq_zero_iff]
  simp only [List.mem_map, forall_exists_index, and_imp, forall_apply_eq_imp_iff₂, countP_eq_zero, not_forall,
    Bool.not_eq_true, Bool.and_eq_true, decide_eq_true_eq, exists_prop, not_and, Bool.not_eq_false]

/-- The links to a node are those that meet a condition and those that do not. -/
theorem linkCount_add_not (r : AnchorId → AnchorId → Bool) (u v : NodeId) :
    h.linkCount (fun a b => !r a b) u v + h.linkCount r u v = h.linkCount (fun _ _ => true) u v := by
  unfold linkCount
  rw [← sum_map_add]
  refine congrArg List.sum (map_congr_left fun a _ => ?_)
  induction h.peers a with
  | nil => rfl
  | cons b l ih =>
    simp only [countP_cons]
    cases r a b <;> cases decide (h.owner b = v) <;> simp_all <;> omega

/-- The links from the nodes of a graph to one of them, counted at their ends. -/
theorem sum_linkCount (hs : h.Sound) (hd : h.Directed) (hc : h.ClosedGraph g)
    (hN : (h.graph g).nodes.Nodup) (r : AnchorId → AnchorId → Bool) (hv : v ∈ (h.graph g).nodes) :
    ((h.graph g).nodes.map (h.linkCount r · v)).sum = ((h.inAnchors v).map fun b => (h.peers b).countP (r · b)).sum := by
  have hvn : v < h.nodeCount := hc.made v hv
  have hsum := hs.symm.sum_countP (nodup_outAnchors hs.laid hN hc.made)
    (nodup_inAnchors hs.laid hvn)
    (fun a b => h.owner b = v && r a b) ?_ ?_
  · calc ((h.graph g).nodes.map (h.linkCount r · v)).sum
        = (((h.graph g).nodes.flatMap h.outAnchors).map fun a =>
            (h.peers a).countP fun b => h.owner b = v && r a b).sum := by
          rw [map_flatMap, flatMap_def, sum_flatten, map_map]
          rfl
      _ = ((h.inAnchors v).map fun b => (h.peers b).countP fun a => h.owner b = v && r a b).sum := hsum
      _ = ((h.inAnchors v).map fun b => (h.peers b).countP (r · b)).sum := by
          refine congrArg List.sum (map_congr_left fun b hb => ?_)
          have howner : h.owner b = v := ((mem_inAnchors hs.laid hvn).mp hb).2.1
          simp [howner]
  · intro b hb a ha _
    obtain ⟨-, howner, hkind⟩ := (mem_inAnchors hs.laid hvn).mp hb
    have hin : h.owner a ∈ (h.graph g).nodes := hc.inside b (howner ▸ hv) a ha
    refine mem_flatMap.mpr ⟨h.owner a, hin, (mem_outAnchors hs.laid (hc.made _ hin)).mpr ⟨hs.peersHeld b a ha, rfl, ?_⟩⟩
    rw [hd b a ha, hkind]
    rfl
  · intro a ha b hb hr
    obtain ⟨u, hu, ha⟩ := mem_flatMap.mp ha
    obtain ⟨-, -, hkind⟩ := (mem_outAnchors hs.laid (hc.made u hu)).mp ha
    simp only [Bool.and_eq_true, decide_eq_true_eq] at hr
    refine (mem_inAnchors hs.laid hvn).mpr ⟨hs.peersHeld a b hb, hr.1, ?_⟩
    rw [hd a b hb, hkind]
    rfl

/-- The links into a node from the nodes of its graph are all that come in. -/
theorem sum_linkCount_true (hs : h.Sound) (hd : h.Directed) (hc : h.ClosedGraph g)
    (hN : (h.graph g).nodes.Nodup) (hv : v ∈ (h.graph g).nodes) :
    ((h.graph g).nodes.map (h.linkCount (fun _ _ => true) · v)).sum = h.inLinks v := by
  rw [sum_linkCount hs hd hc hN _ hv]
  refine congrArg List.sum (map_congr_left fun b _ => ?_)
  exact congrFun countP_true _

end

end Heap

end Metadef
