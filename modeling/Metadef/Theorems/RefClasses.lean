import Metadef.Lemmas.NestedGraphs
import Metadef.Lemmas.RefLists

/-!
# Reference relations as classes

What the relations of a root graph find are classes, and those of a loop the indexes connected through its body, exactly when the
ties of each loop settle in the order they are read, and no place prints the key of one it has no relation to.
-/

namespace Metadef

open List NestedAux Option

open RefRelations JoinedLists RefLists

/-! ## Classes -/

/-- A place is an input or an output of its node: it bears the name of the node. -/
def RefCell.Named (h : Heap) (c : RefCell) : Prop := c.nodeName = Node.getName h c.node

/-- A node has one of the types that run subgraphs. -/
def RefLists.FunctionTyped (h : Heap) (w : NodeId) : Prop :=
  Node.getType h w = "While" ∨ Node.getType h w = "If" ∨ Node.getType h w = "Case"

instance (h : Heap) (w : NodeId) : Decidable (FunctionTyped h w) := inferInstanceAs (Decidable (_ ∨ _))

/-- In the body of a loop, data that names an index feeds an output that names another. -/
def RefLists.LoopEdge (h : Heap) (x : RefIndexes) (g : GraphId) (w : NodeId) (i j : Nat) : Prop :=
  IsLoop h w ∧ ∃ name body, (h.desc w).subgraphInstanceNames[1]? = some name ∧ (h.graph g).namesToSubgraph.find name = some body ∧
    ∃ data ∈ (h.graph body).nodes, ∃ net ∈ (h.graph body).nodes, Node.getType h data = "Data" ∧ Node.getType h net = "NetOutput" ∧
      ∃ a ∈ (h.node net).inDataAnchors, ∃ b, InDataAnchor.getPeerOutAnchor h a = some b ∧ h.owner b = data ∧
        x.ofNode (h.node data).op = some (i : Int) ∧ x.ofInput (h.node net).op (h.anchor a).idx.toNat = some (j : Int)

/-- Two indexes of a node are connected through the body. -/
def RefLists.Connected (h : Heap) (x : RefIndexes) (g : GraphId) (w : NodeId) : Nat → Nat → Prop :=
  Relation.EqvGen (LoopEdge h x g w)

/-- A place is found for another exactly when both find the same places, and those of two indexes of a loop are found for each
other exactly when the indexes are connected. -/
structure RefRelations.FormsClasses (h : Heap) (x : RefIndexes) (address : NodeId → Nat) (g : GraphId) (nodes : List NodeId)
    (r : RefRelations) : Prop where
  classes : ∀ c d : RefCell, c.Named h → d.Named h → lookUpRefRelations address r c ≠ [] →
    (d ∈ lookUpRefRelations address r c ↔ ∀ e, e ∈ lookUpRefRelations address r c ↔ e ∈ lookUpRefRelations address r d)
  loops : ∀ w ∈ nodes, IsLoop h w → ∀ i < (h.node w).inDataAnchors.length, ∀ j < (h.node w).inDataAnchors.length, ∀ s t : InOutFlag,
    cell h w t j ∈ lookUpRefRelations address r (cell h w s i) ↔ Connected h x g w i j

namespace RefClassesAux

open RefListsAux

variable {h : Heap} {x : RefIndexes} {g : GraphId} {w u : NodeId} {k m : Nat} {s t : InOutFlag} {c : RefCell}

/-! ## The places of a class -/

/-- The places of an index of a node: its own, those of data nodes of its subgraphs and those of inputs of their outputs. -/
inductive IsPlace (h : Heap) (x : RefIndexes) (g : GraphId) (w : NodeId) (k : Nat) : InOutFlag → RefCell → Prop where
  | own (s : InOutFlag) : IsPlace h x g w k s (cell h w s k)
  | data {d : NodeId} (hd : d ∈ dataAt h x g w k) (s : InOutFlag) : IsPlace h x g w k .nodeIn (cell h d s 0)
  | net {e : NodeId × Nat} (he : e ∈ netsAt h x g w k) : IsPlace h x g w k .nodeOut (cell h e.1 .nodeIn e.2)

variable {nodes : List NodeId} {i : Nat} {n : NodeId} {r : RefRelations} {α : Type}

theorem mem_dataCells : c ∈ dataCells h nodes ↔ ∃ d ∈ nodes, ∃ s, c = cell h d s 0 := by
  unfold dataCells
  rw [mem_flatMap]
  refine exists_congr fun d => and_congr_right fun _ => ?_
  constructor
  · intro hc
    rcases mem_pair.mp hc with rfl | rfl
    · exact ⟨.nodeIn, rfl⟩
    · exact ⟨.nodeOut, rfl⟩
  · rintro ⟨s, rfl⟩
    cases s <;> simp

theorem mem_netoutputCells {nets : List (NodeId × Nat)} : c ∈ netoutputCells h nets ↔ ∃ e ∈ nets, c = cell h e.1 .nodeIn e.2 := by
  unfold netoutputCells
  rw [List.mem_map]
  exact exists_congr fun e => and_congr_right fun _ => eq_comm

theorem mem_branchIn : c ∈ branchIn h x g w k ↔ IsPlace h x g w k .nodeIn c := by
  unfold branchIn
  rw [mem_cons, mem_dataCells]
  constructor
  · rintro (rfl | ⟨d, hd, s, rfl⟩)
    · exact .own .nodeIn
    · exact .data hd s
  · intro hc
    cases hc with
    | own => exact .inl rfl
    | data hd s => exact .inr ⟨_, hd, s, rfl⟩

theorem mem_branchOut : c ∈ branchOut h x g w k ↔ IsPlace h x g w k .nodeOut c := by
  unfold branchOut
  rw [mem_cons, mem_netoutputCells]
  constructor
  · rintro (rfl | ⟨e, he, rfl⟩)
    · exact .own .nodeOut
    · exact .net he
  · intro hc
    cases hc with
    | own => exact .inl rfl
    | net he => exact .inr ⟨_, he, rfl⟩

theorem mem_loopClass : c ∈ loopClass h x g w k ↔ ∃ s, IsPlace h x g w k s c := by
  unfold loopClass whileClass
  rw [mem_append, mem_append, mem_pair, mem_dataCells, mem_netoutputCells]
  constructor
  · rintro (((rfl | rfl) | ⟨d, hd, s, rfl⟩) | ⟨e, he, rfl⟩)
    · exact ⟨_, .own .nodeIn⟩
    · exact ⟨_, .own .nodeOut⟩
    · exact ⟨_, .data hd s⟩
    · exact ⟨_, .net he⟩
  · rintro ⟨s, hc⟩
    cases hc with
    | own => cases s <;> simp
    | data hd s => exact .inl (.inr ⟨_, hd, s, rfl⟩)
    | net he => exact .inr ⟨_, he, rfl⟩

/-- The number of the class a place of an index is in. -/
def classOf (h : Heap) (g : GraphId) (w : NodeId) (k : Nat) (s : InOutFlag) : Nat :=
  if Node.getType h w = "While" then k else match s with
    | .nodeIn => k
    | .nodeOut => maxElemNum h g w + k

theorem getD_map_range (f : Nat → List RefCell) (m i : Nat) : ((List.range m).map f).getD i [] = if i < m then f i else [] := by
  rw [getD_eq_getElem?_getD, getElem?_map_range]
  split <;> rfl

theorem exists_place (hc : c ∈ (refLists h x g w).getD i []) :
    (h.desc w).subgraphInstanceNames ≠ [] ∧ ∃ k s, IsPlace h x g w k s c ∧ i = classOf h g w k s := by
  unfold refLists at hc
  by_cases hnames : (h.desc w).subgraphInstanceNames = []
  · simp [hnames] at hc
  · refine ⟨hnames, ?_⟩
    rw [if_neg hnames] at hc
    unfold classOf
    by_cases htype : Node.getType h w = "While"
    · rw [if_pos htype, getD_map_range] at hc
      split at hc
      next =>
        obtain ⟨s, hc⟩ := mem_loopClass.mp hc
        exact ⟨i, s, hc, by simp [htype]⟩
      next => cases hc
    · rw [if_neg htype, getD_eq_getElem?_getD] at hc
      by_cases hi : i < maxElemNum h g w
      · rw [getElem?_append_left (by simpa using hi), getElem?_map_range, if_pos hi] at hc
        exact ⟨i, .nodeIn, mem_branchIn.mp hc, by simp [htype]⟩
      · have hle : ((List.range (maxElemNum h g w)).map (branchIn h x g w)).length ≤ i := by simpa using hi
        rw [getElem?_append_right hle, getElem?_map_range] at hc
        simp only [length_map, length_range] at hc
        split at hc
        next =>
          refine ⟨i - maxElemNum h g w, .nodeOut, mem_branchOut.mp hc, ?_⟩
          simp only [htype, if_false]
          omega
        next => cases hc

/-! ## Where a place belongs -/

theorem mem_nodesOfType {graphs : List GraphId} {type : String} :
    n ∈ nodesOfType h graphs type ↔ (∃ y ∈ graphs, n ∈ (h.graph y).nodes) ∧ Node.getType h n = type := by
  unfold nodesOfType
  simp only [mem_flatMap, mem_filter, decide_eq_true_eq]
  constructor
  · exact fun ⟨y, hy, hn, ht⟩ => ⟨⟨y, hy, hn⟩, ht⟩
  · exact fun ⟨⟨y, hy, hn⟩, ht⟩ => ⟨y, hy, hn, ht⟩

theorem of_dataAt {d : NodeId} (hd : d ∈ dataAt h x g w k) :
    d ∈ h.inner g w ∧ Node.getType h d = "Data" ∧ x.ofNode (h.node d).op = some (k : Int) := by
  obtain ⟨hd, hk⟩ := mem_filter.mp hd
  obtain ⟨hin, htype⟩ := mem_nodesOfType.mp (mem_reverse.mp hd)
  exact ⟨NestedAux.mem_inner.mpr hin, htype, of_decide_eq_true hk⟩

theorem of_netsAt {e : NodeId × Nat} (he : e ∈ netsAt h x g w k) :
    e.1 ∈ h.inner g w ∧ Node.getType h e.1 = "NetOutput" ∧ x.ofInput (h.node e.1).op e.2 = some (k : Int) := by
  obtain ⟨net, hnet, he⟩ := mem_flatMap.mp he
  obtain ⟨a, -, ha⟩ := mem_filterMap.mp he
  obtain ⟨⟨y, hy, hn⟩, htype⟩ := mem_nodesOfType.mp hnet
  have hresolved : y ∈ h.resolved g w := by
    split at hy
    next => exact mem_of_mem_tail hy
    next => exact hy
  split at ha
  next hof =>
    obtain rfl := Option.some.inj ha
    exact ⟨NestedAux.mem_inner.mpr ⟨y, hresolved, hn⟩, htype, hof⟩
  next => cases ha

/-- Nodes with a common node in their subgraphs are one. -/
theorem eq_of_inner (hm : h.NestedModel g) (hnodes : h.NodesInOrder g nodes) (hw : w ∈ nodes) (hu : u ∈ nodes)
    (hnw : n ∈ h.inner g w) (hnu : n ∈ h.inner g u) : w = u := by
  obtain ⟨y, hy, hny⟩ := NestedAux.mem_inner.mp hnw
  obtain ⟨z, hz, hnz⟩ := NestedAux.mem_inner.mp hnu
  obtain rfl := eq_of_node hm (registered_of_resolved hm.agree hy)
    (registered_of_resolved hm.agree hz)
    hny hnz
  have hsub := subset_modelNodes hm.agree hnodes
  exact eq_of_resolved hm (hsub hw) (hsub hu) hy hz

theorem ne_data (hf : FunctionTyped h w) : Node.getType h w ≠ "Data" := by
  rcases hf with hf | hf | hf <;> simp [hf]

theorem ne_netoutput (hf : FunctionTyped h w) : Node.getType h w ≠ "NetOutput" := by
  rcases hf with hf | hf | hf <;> simp [hf]

/-- What a place of an index is, by its node. -/
theorem of_place (hc : IsPlace h x g w k s c) : (c.node = w ∧ c.inOut = s ∧ c.inOutIdx = k) ∨
    (c.node ∈ h.inner g w ∧ Node.getType h c.node = "Data" ∧ s = .nodeIn ∧ x.ofNode (h.node c.node).op = some (k : Int)) ∨
    (c.node ∈ h.inner g w ∧ Node.getType h c.node = "NetOutput" ∧ s = .nodeOut ∧
      x.ofInput (h.node c.node).op c.inOutIdx.toNat = some (k : Int)) := by
  cases hc with
  | own s => exact .inl ⟨rfl, rfl, rfl⟩
  | data hd s =>
    obtain ⟨hin, htype, hk⟩ := of_dataAt hd
    exact .inr (.inl ⟨hin, htype, rfl, hk⟩)
  | net he =>
    obtain ⟨hin, htype, hk⟩ := of_netsAt he
    exact .inr (.inr ⟨hin, htype, rfl, hk⟩)

/-- A place is in one class of one node. -/
theorem place_unique (hm : h.NestedModel g) (hnodes : h.NodesInOrder g nodes) (hw : w ∈ nodes) (hu : u ∈ nodes)
    (hfw : FunctionTyped h w) (hfu : FunctionTyped h u) (hp : IsPlace h x g w k s c) (hq : IsPlace h x g u m t c) :
    w = u ∧ k = m ∧ s = t := by
  rcases of_place hp with ⟨rfl, rfl, hk⟩ | ⟨hin, htype, rfl, hk⟩ | ⟨hin, htype, rfl, hk⟩
  · rcases of_place hq with ⟨rfl, rfl, hk'⟩ | ⟨-, htype, -⟩ | ⟨-, htype, -⟩
    · exact ⟨rfl, by omega, rfl⟩
    · exact absurd htype (ne_data hfw)
    · exact absurd htype (ne_netoutput hfw)
  · rcases of_place hq with ⟨rfl, -⟩ | ⟨hin', -, rfl, hk'⟩ | ⟨-, htype', -⟩
    · exact absurd htype (ne_data hfu)
    · rw [hk] at hk'
      exact ⟨eq_of_inner hm hnodes hw hu hin hin', Int.ofNat.inj (Option.some.inj hk'), rfl⟩
    · exact absurd (htype.symm.trans htype') (by decide)
  · rcases of_place hq with ⟨rfl, -⟩ | ⟨-, htype', -⟩ | ⟨hin', -, rfl, hk'⟩
    · exact absurd htype (ne_netoutput hfu)
    · exact absurd (htype'.symm.trans htype) (by decide)
    · rw [hk] at hk'
      exact ⟨eq_of_inner hm hnodes hw hu hin hin', Int.ofNat.inj (Option.some.inj hk'), rfl⟩

/-! ## The family -/

variable {nodes : List NodeId} {address : NodeId → Nat}

theorem wellMade (hm : h.NestedModel g) (hnodes : h.NodesInOrder g nodes)
    (htypes : ∀ w ∈ nodes, (h.desc w).subgraphInstanceNames ≠ [] → FunctionTyped h w)
    (hbound : ∀ w ∈ nodes, ∀ t ∈ ties h x g w, t.1 < (refLists h x g w).length ∧ t.2 < (refLists h x g w).length) :
    (refFamily h x address g nodes).WellMade := by
  refine ⟨hbound, fun w hw u hu i j c hc hc' => ?_⟩
  obtain ⟨hnw, k, s, hp, rfl⟩ := exists_place hc
  obtain ⟨hnu, m, t, hq, rfl⟩ := exists_place hc'
  obtain ⟨rfl, rfl, rfl⟩ := place_unique hm hnodes hw hu (htypes w hw hnw) (htypes u hu hnu) hp hq
  exact ⟨rfl, rfl⟩

theorem named_of_mem (hc : c ∈ (refLists h x g w).getD i []) : c.Named h := by
  obtain ⟨-, k, s, hp, -⟩ := exists_place hc
  cases hp <;> rfl

/-- The places by which the class of an index is known: those of the node for a loop. -/
def marks (h : Heap) (x : RefIndexes) (g : GraphId) (w : NodeId) (i : Nat) : List RefCell :=
  if IsLoop h w then [cell h w .nodeIn i, cell h w .nodeOut i] else (refLists h x g w).getD i []

theorem refLists_of_loop (hloop : IsLoop h w) :
    refLists h x g w = (List.range (h.node w).inDataAnchors.length).map (loopClass h x g w) := by
  unfold refLists
  rw [if_neg hloop.1, if_pos hloop.2]

theorem marks_spec (hi : i < (refLists h x g w).length) :
    marks h x g w i ≠ [] ∧ marks h x g w i ⊆ (refLists h x g w).getD i [] := by
  unfold marks
  by_cases hloop : IsLoop h w
  · rw [if_pos hloop, refLists_of_loop hloop, getD_map_range]
    rw [refLists_of_loop hloop, length_map, length_range] at hi
    rw [if_pos hi]
    refine ⟨by simp, fun c hc => mem_loopClass.mpr ?_⟩
    rcases mem_pair.mp hc with rfl | rfl
    · exact ⟨_, .own .nodeIn⟩
    · exact ⟨_, .own .nodeOut⟩
  · rw [if_neg hloop]
    refine ⟨?_, fun _ hc => hc⟩
    have hget : (refLists h x g w).getD i [] ∈ refLists h x g w := by
      rw [getD_eq_getElem _ _ hi]
      exact getElem_mem hi
    have hne : ∀ l ∈ refLists h x g w, l ≠ [] := by
      unfold refLists
      split
      next => simp
      next =>
        split
        next => simp [loopClass, whileClass]
        next =>
          intro l hl
          rcases mem_append.mp hl with hl | hl
          · obtain ⟨k, -, rfl⟩ := List.mem_map.mp hl
            exact cons_ne_nil _ _
          · obtain ⟨k, -, rfl⟩ := List.mem_map.mp hl
            exact cons_ne_nil _ _
    exact hne _ hget

/-- The indexes of a node without a body are connected to themselves only. -/
theorem connected_iff_eq (hloop : ¬ IsLoop h w) (i j : Nat) : Connected h x g w i j ↔ i = j := by
  constructor
  · intro hc
    induction hc with
    | rel _ _ he => exact absurd he.1 hloop
    | refl => rfl
    | symm _ _ _ ih => exact ih.symm
    | trans _ _ _ _ _ ih ih' => exact ih.trans ih'
  · rintro rfl
    exact .refl i

theorem matches_iff (hlook : ∀ key, lookUpRefRelations address r key = (refFamily h x address g nodes).look
    (keyOf address key)) (hloop : IsLoop h w) :
    (refFamily h x address g nodes).Matches (marks h x g) (Connected h x g w) w ↔
      ∀ i < (h.node w).inDataAnchors.length, ∀ j < (h.node w).inDataAnchors.length, ∀ s t : InOutFlag,
        cell h w t j ∈ lookUpRefRelations address r (cell h w s i) ↔ Connected h x g w i j := by
  have hlen : ((refFamily h x address g nodes).base w).length = (h.node w).inDataAnchors.length := by
    change (refLists h x g w).length = _
    rw [refLists_of_loop hloop, length_map, length_range]
  have hmarks : ∀ i c, c ∈ marks h x g w i ↔ ∃ s, c = cell h w s i := by
    intro i c
    unfold marks
    rw [if_pos hloop, mem_pair]
    constructor
    · rintro (rfl | rfl)
      · exact ⟨.nodeIn, rfl⟩
      · exact ⟨.nodeOut, rfl⟩
    · rintro ⟨s, rfl⟩
      cases s
      · exact .inl rfl
      · exact .inr rfl
  have hsymm : ∀ i j, Connected h x g w j i ↔ Connected h x g w i j := fun i j => ⟨.symm j i, .symm i j⟩
  unfold JoinedFamily.Matches
  rw [hlen]
  refine forall_congr' fun i => forall_congr' fun _ => forall_congr' fun j => forall_congr' fun _ => ?_
  constructor
  · intro hall s t
    rw [hlook, ← hsymm]
    exact hall _ ((hmarks i _).mpr ⟨s, rfl⟩) _ ((hmarks j _).mpr ⟨t, rfl⟩)
  · intro hall c hc d hd
    obtain ⟨s, rfl⟩ := (hmarks i c).mp hc
    obtain ⟨t, rfl⟩ := (hmarks j d).mp hd
    rw [hsymm, ← hall s t, hlook]
    rfl

/-- Relations built for a root form classes exactly when keys are apart and ties settled. -/
theorem formsClasses_iff (hm : h.NestedModel g) (hnodes : h.NodesInOrder g nodes)
    (htypes : ∀ w ∈ nodes, (h.desc w).subgraphInstanceNames ≠ [] → FunctionTyped h w) {fuel : Nat}
    (hr : relate h x address fuel g nodes {} = (r, none)) :
    FormsClasses h x address g nodes r ↔
      (refFamily h x address g nodes).KeysApart (RefCell.Named h) (Connected h x g) ∧
        ∀ w ∈ nodes, IsLoop h w → Settled (ties h x g w) (Connected h x g w) (h.node w).inDataAnchors.length := by
  obtain ⟨hlook, hbound⟩ := lookUp_eq hm.root hr
  have hiff := (JoinedFamily.classes_iff (wellMade hm hnodes htypes hbound)
    (fun w _ => Relation.EqvGen.is_equivalence (LoopEdge h x g w))
    (fun w _ i c hc => named_of_mem hc) (fun w _ i hi => marks_spec hi) (fun w _ hloop => ⟨if_neg hloop, connected_iff_eq hloop⟩) :
    (_ ∧ ∀ w ∈ (refFamily h x address g nodes).owners, IsLoop h w → _) ↔ _)
  have hsize : ∀ w, IsLoop h w → ((refFamily h x address g nodes).base w).length = (h.node w).inDataAnchors.length := by
    intro w hloop
    change (refLists h x g w).length = _
    rw [refLists_of_loop hloop, length_map, length_range]
  constructor
  · rintro ⟨hclasses, hloops⟩
    obtain ⟨hkeys, hsettled⟩ := hiff.mp ⟨fun c d hc hd hne => by
      have hone := hclasses c d hc hd
      simp only [hlook] at hone
      exact hone hne, fun w hw hloop => (matches_iff hlook hloop).mpr (hloops w hw hloop)⟩
    exact ⟨hkeys, fun w hw hloop => hsize w hloop ▸ hsettled w hw hloop⟩
  · rintro ⟨hkeys, hsettled⟩
    obtain ⟨hclasses, hloops⟩ := hiff.mpr ⟨hkeys, fun w hw hloop => (hsize w hloop).symm ▸ hsettled w hw hloop⟩
    refine ⟨fun c d hc hd hne => ?_, fun w hw hloop => (matches_iff hlook hloop).mp (hloops w hw hloop)⟩
    simp only [hlook] at hne ⊢
    exact hclasses c d hc hd hne

theorem assign_self (s : RefGraphs α) (g : GraphId) : s.assign g g = s := by
  unfold RefGraphs.assign Heap.setGraph
  rw [Function.update_eq_self, Function.update_eq_self]

/-- Building for a root relates its nodes, and leaves the graph. -/
theorem buildRefRelations_of_root {s : RefGraphs α} (hroot : (s.heap.graph g).parentGraph = none)
    (fuel : Nat) : buildRefRelations x address fuel g r s =
      (ComputeGraph.getAllNodes s.heap fuel g).map fun nodes => (relate s.heap x address fuel g nodes r, s) := by
  unfold buildRefRelations getRootGraph
  simp only [hroot, bind_eq_bind, bind_some, assign_self]
  cases ComputeGraph.getAllNodes s.heap fuel g <;> rfl

end RefClassesAux

open RefClassesAux in
/-- Relations built for a root graph form classes exactly when a place that prints the key of a related place is related to it, and for
the last index of each set of connected indexes of a loop, the indexes of the set are those from which a chain of ties leads to it in
the order they are read, and no such chain leads from one of them further. -/
theorem buildRefRelations_classes_iff {α : Type} (x : RefIndexes) (address : NodeId → Nat) (fuel : Nat) (g : GraphId)
    (nodes : List NodeId) (s s' : RefGraphs α) (r : RefRelations) (hm : s.heap.NestedModel g) (hnodes : s.heap.NodesInOrder g nodes)
    (htypes : ∀ w ∈ nodes, (s.heap.desc w).subgraphInstanceNames ≠ [] → FunctionTyped s.heap w)
    (hb : buildRefRelations x address fuel g {} s = some ((r, none), s')) :
    FormsClasses s.heap x address g nodes r ↔
      (refFamily s.heap x address g nodes).KeysApart (RefCell.Named s.heap) (Connected s.heap x g) ∧
        ∀ w ∈ nodes, IsLoop s.heap w →
          Settled (ties s.heap x g w) (Connected s.heap x g w) (s.heap.node w).inDataAnchors.length := by
  rw [buildRefRelations_of_root hm.root] at hb
  obtain ⟨found, hfound, hbuilt⟩ := Option.map_eq_some_iff.mp hb
  obtain ⟨⟨found, subgraphs⟩, hall, rfl⟩ := Option.map_eq_some_iff.mp hfound
  obtain rfl := (NodeWalks.of_allGraphNodes hm.root hall).1.unique hnodes
  exact formsClasses_iff hm hnodes htypes (Prod.mk.inj hbuilt).1

namespace RefClassesWitness

open RefClassesAux

/-- A loop of three indexes, and the data and the output of its body. The last data feeds the first and the last input of the output,
the first data feeds the second. -/
def linking : List LinkCall :=
  let data : OpDesc := { opDef := { name := "d", type := "Data" }, inputsDesc := [{}], outputsDesc := [{}] }
  [.newOp { opDef := { name := "w", type := "While" }, inputsDesc := [{}, {}, {}], outputsDesc := [{}, {}, {}],
            subgraphInstanceNames := ["cond", "body"] }, .newNode 0,
    .newOp data, .newNode 1, .newOp data, .newNode 2, .newOp data, .newNode 3,
    .newOp { opDef := { name := "o", type := "NetOutput" }, inputsDesc := [{}, {}, {}] }, .newNode 4,
    .addDataEdge (some 19) (some 22), .addDataEdge (some 11) (some 23), .addDataEdge (some 19) (some 24)]

/-- The loop in graph 0, its empty condition graph 1 and its body graph 2. -/
def looped : RefGraphs Unit where
  heap :=
    let h := GraphSteps.addAll 2 (GraphSteps.addAll 0 ((LinkCall.runAll linking).getD .empty) [0]) [1, 2, 3, 4]
    h.setGraph 0 { h.graph 0 with subGraph := [1, 2], namesToSubgraph := [("cond", 1), ("body", 2)] }
  attrs := fun _ => ()

/-- Each data node and each input of the output names its own index. -/
def indexes : RefIndexes where
  ofNode := fun op => some (op - 1)
  ofInput := fun _ idx => some idx

theorem nested_looped : looped.heap.NestedModel 0 := by
  have hagree : looped.heap.RegistriesAgree 0 := by
    change Registry.Agree [1, 2] [("cond", 1), ("body", 2)]
    exact ⟨by decide, by decide, by decide⟩
  refine ⟨by decide +kernel, hagree, by decide +kernel, by decide +kernel, fun x hx => ?_⟩
  -- nothing nests in the subgraphs, and nothing else nests in anything
  have hone : ∀ x y, looped.heap.Nests 0 x y → y ∈ [1, 2] := by
    rintro x y ⟨n, -, hy⟩
    exact registered_of_resolved hagree hy
  have hnone : ∀ x ∈ [1, 2], ∀ y, ¬ looped.heap.Nests 0 x y := by
    rintro x hx y ⟨n, hn, hy⟩
    have hempty : ∀ x ∈ [1, 2], ∀ n ∈ (looped.heap.graph x).nodes, looped.heap.resolved 0 n = [] := by decide +kernel
    rw [hempty x hx n hn] at hy
    cases hy
  obtain ⟨y, -, hyx⟩ := Relation.TransGen.tail'_iff.mp hx
  obtain ⟨z, hxz, -⟩ := Relation.TransGen.head'_iff.mp hx
  exact hnone x (hone y x hyx) z hxz

theorem nodes_looped : ComputeGraph.allGraphNodes looped.heap 6 0 = some ([0, 1, 2, 3, 4], [2, 1]) ∧
    (∀ w ∈ [0, 1, 2, 3, 4], (looped.heap.desc w).subgraphInstanceNames ≠ [] → FunctionTyped looped.heap w) ∧
      (relate looped.heap indexes id 6 0 [0, 1, 2, 3, 4] {}).2 = none :=
  ⟨by decide +kernel, by decide +kernel, by decide +kernel⟩

theorem nodesInOrder_looped : looped.heap.NodesInOrder 0 [0, 1, 2, 3, 4] :=
  (NodeWalks.of_allGraphNodes nested_looped.root nodes_looped.1).1

/-- The relations of the loop. -/
def related : RefRelations := (relate looped.heap indexes id 6 0 [0, 1, 2, 3, 4] {}).1

theorem relate_looped : relate looped.heap indexes id 6 0 [0, 1, 2, 3, 4] {} = (related, none) := by
  unfold related
  rw [← nodes_looped.2.2]

theorem build_looped : buildRefRelations indexes id 6 0 {} looped = some ((related, none), looped) := by
  rw [buildRefRelations_of_root nested_looped.root]
  unfold ComputeGraph.getAllNodes
  rw [nodes_looped.1, map_some, map_some, relate_looped]

theorem buildRefRelations_classes_looped :
    FormsClasses looped.heap indexes id 0 [0, 1, 2, 3, 4] related ↔
      (refFamily looped.heap indexes id 0 [0, 1, 2, 3, 4]).KeysApart (RefCell.Named looped.heap) (Connected looped.heap indexes 0) ∧
        ∀ w ∈ [0, 1, 2, 3, 4], IsLoop looped.heap w → Settled (ties looped.heap indexes 0 w) (Connected looped.heap indexes 0 w)
          (looped.heap.node w).inDataAnchors.length :=
  buildRefRelations_classes_iff indexes id 6 0 [0, 1, 2, 3, 4] looped looped related nested_looped nodesInOrder_looped
    nodes_looped.2.1 build_looped

/-- The index read second is tied to one that was joined with the last index before. -/
theorem not_settled_looped : ¬ Settled (ties looped.heap indexes 0 0) (Connected looped.heap indexes 0 0)
    (looped.heap.node 0).inDataAnchors.length := by
  have hties : ties looped.heap indexes 0 0 = [(2, 0), (0, 1), (2, 2)] := by decide +kernel
  have hsize : (looped.heap.node 0).inDataAnchors.length = 3 := by decide +kernel
  have hloop : IsLoop looped.heap 0 := by decide +kernel
  have hlast : LoopEdge looped.heap indexes 0 0 2 0 :=
    ⟨hloop, "body", 2, by decide +kernel, by decide +kernel, 3, by decide +kernel, 4, by decide +kernel, by decide +kernel,
      by decide +kernel, 22, by decide +kernel, 19, by decide +kernel, by decide +kernel, by decide +kernel, by decide +kernel⟩
  have hfirst : LoopEdge looped.heap indexes 0 0 0 1 :=
    ⟨hloop, "body", 2, by decide +kernel, by decide +kernel, 1, by decide +kernel, 4, by decide +kernel, by decide +kernel,
      by decide +kernel, 23, by decide +kernel, 11, by decide +kernel, by decide +kernel, by decide +kernel, by decide +kernel⟩
  have hconnected : Connected looped.heap indexes 0 0 1 2 :=
    .symm 2 1 (.trans 2 0 1 (.rel 2 0 hlast) (.rel 0 1 hfirst))
  rw [hties, hsize]
  intro hs
  have hleads := ((hs 2 (by omega) fun k hk _ => by omega).1 1 (by omega)).mpr hconnected
  exact absurd hleads (by decide)

/-- What is found for the second index is more than what is found for the others it is connected to. -/
theorem buildRefRelations_classes_false :
    ¬ ∀ (x : RefIndexes) (address : NodeId → Nat) (fuel : Nat) (g : GraphId) (nodes : List NodeId) (s s' : RefGraphs Unit)
      (r : RefRelations), s.heap.NestedModel g → s.heap.NodesInOrder g nodes →
      (∀ w ∈ nodes, (s.heap.desc w).subgraphInstanceNames ≠ [] → FunctionTyped s.heap w) →
      buildRefRelations x address fuel g {} s = some ((r, none), s') → FormsClasses s.heap x address g nodes r := by
  intro hall
  have hforms := hall indexes id 6 0 [0, 1, 2, 3, 4] looped looped related nested_looped nodesInOrder_looped nodes_looped.2.1
    build_looped
  have hiff := formsClasses_iff nested_looped nodesInOrder_looped nodes_looped.2.1 relate_looped
  exact not_settled_looped ((hiff.mp hforms).2 0 (by decide) (by decide +kernel))

end RefClassesWitness

end Metadef
