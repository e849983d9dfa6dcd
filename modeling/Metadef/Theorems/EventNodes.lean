import Metadef.Lib.ListMoves
import Metadef.Lemmas.Resorts

/-!
# Event nodes moved next to their partners

`InsertEventNodes` puts each node that receives in front of the node it controls and each node that sends behind the node that
controls it. Where event nodes have no other edges a sorted graph stays sorted.
-/

namespace Metadef

open List Cmd GraphSteps

open Heap ComputeGraph ListMoves ResortAux

namespace Node

/-- Whether a node is one of those `InsertEventNodes` moves. -/
def isEvent (h : Heap) (n : NodeId) : Bool := getType h n = "Recv" || getType h n = "Send"

end Node

namespace Heap

variable (h : Heap)

/-- A list names nodes once, each before those it has an edge to. -/
structure InTopologicalOrder (l : List NodeId) : Prop where
  once : l.Nodup
  ahead : ∀ u ∈ l, ∀ v ∈ l, h.Ahead u v → [u, v].Sublist l

/-- A node comes before another with only event nodes in between. -/
structure NextTo (l : List NodeId) (u v : NodeId) : Prop where
  before : [u, v].Sublist l
  between : ∀ x, [u, x, v].Sublist l → Node.isEvent h x = true

/-- Each node that receives has no inputs and controls one node of the graph, each node that sends has no outputs and one node
of the graph controls it. -/
structure EventsPartnered (g : GraphId) : Prop where
  recv : ∀ n ∈ (h.graph g).nodes, Node.getType h n = "Recv" →
    (∀ u, ¬ h.AnyEdge u n) ∧ ∃ p ∈ (h.graph g).nodes, Node.getOutControlNodes h n = [p]
  send : ∀ n ∈ (h.graph g).nodes, Node.getType h n = "Send" →
    (∀ v, ¬ h.AnyEdge n v) ∧ ∃ p ∈ (h.graph g).nodes, Node.getInControlNodes h n = [p]

/-- The edges of event nodes join them to their partners. -/
structure EventsPlain (g : GraphId) : Prop where
  recv : ∀ n ∈ (h.graph g).nodes, Node.getType h n = "Recv" → ∀ v, h.AnyEdge n v → Node.getOutControlNodes h n = [v]
  send : ∀ n ∈ (h.graph g).nodes, Node.getType h n = "Send" → ∀ u, h.AnyEdge u n → Node.getInControlNodes h n = [u]

/-- The nodes of a graph in a new order that edges respect, with their positions for ids and each event node next to its
partner. -/
structure EventsMoved (h' : Heap) (g : GraphId) : Prop where
  perm : (h'.graph g).nodes.Perm (h.graph g).nodes
  order : h'.InTopologicalOrder (h'.graph g).nodes
  id : ∀ (i : Nat) n, (h'.graph g).nodes[i]? = some n → (h'.desc n).getId = i
  recv : ∀ n ∈ (h.graph g).nodes, Node.getType h n = "Recv" → ∀ p, Node.getOutControlNodes h n = [p] →
    h'.NextTo (h'.graph g).nodes n p
  send : ∀ n ∈ (h.graph g).nodes, Node.getType h n = "Send" → ∀ p, Node.getInControlNodes h n = [p] →
    h'.NextTo (h'.graph g).nodes p n

end Heap

namespace EventAux

variable {h h' : Heap} {g : GraphId} {l d : List NodeId} {n p u v : NodeId} {k : Nat}

/-! ## Partners -/

/-- A node that is controlled by outputs of another has an edge from it. -/
theorem edge_of_outControl (hl : h.Laid) (hn : n < h.nodeCount) (hp : Node.getOutControlNodes h n = [p]) : h.Ahead n p := by
  have hmem : p ∈ Node.getOutControlNodes h n := by simp [hp]
  simp only [Node.getOutControlNodes, mem_append, List.mem_map, mem_flatMap] at hmem
  have hedge : ∀ a b, h.owner a = n → (h.kind a).isIn = false → b ∈ h.peers a → h.isLoopLink a b = false → h.owner b = p →
      h.Ahead n p := by
    intro a b ha hka hb hloop hbp
    exact ⟨a, b, hb, hka, ha, hbp, by simp [hloop]⟩
  rcases hmem with ⟨b, ⟨a, ha, hb⟩, rfl⟩ | ⟨b, hb, rfl⟩
  · have hkind : h.kind a = .outData := hl.kind n hn .outData a ha
    obtain ⟨hba, hkb⟩ := mem_filter.mp hb
    have hcontrol : h.kind b = .inControl := by simpa using hkb
    exact hedge a b (hl.owner n hn .outData a ha) (by simp [hkind, AnchorKind.isIn]) hba (by simp [Heap.isLoopLink, hcontrol]) rfl
  · have ha : (h.node n).outControlAnchor ∈ h.anchorsOf n .outControl := by simp [Heap.anchorsOf]
    have hkind : h.kind (h.node n).outControlAnchor = .outControl := hl.kind n hn .outControl _ ha
    exact hedge _ b (hl.owner n hn .outControl _ ha) (by simp [hkind, AnchorKind.isIn]) hb (by simp [Heap.isLoopLink, hkind]) rfl

/-- A node that another controls has an edge from it. -/
theorem edge_of_inControl (hs : h.Sound) (hn : n < h.nodeCount) (hp : Node.getInControlNodes h n = [p]) : h.Ahead p n := by
  have hmem : p ∈ Node.getInControlNodes h n := by simp [hp]
  obtain ⟨a, ha, rfl⟩ := List.mem_map.mp hmem
  obtain ⟨hpeer, hka⟩ := mem_filter.mp ha
  have hb : (h.node n).inControlAnchor ∈ h.anchorsOf n .inControl := by simp [Heap.anchorsOf]
  have hkb : h.kind (h.node n).inControlAnchor = .inControl := hs.laid.kind n hn .inControl _ hb
  have hkind : h.kind a = .outControl := by simpa using hka
  exact ⟨a, _, hs.symm.mem hpeer, by simp [hkind, AnchorKind.isIn], rfl, hs.laid.owner n hn .inControl _ hb,
    by simp [Heap.isLoopLink, hkb]⟩

/-! ## The list while nodes are moved -/

/-- The heap with the nodes of a graph in another order. -/
def listing (h : Heap) (g : GraphId) (l : List NodeId) : Heap := h.setGraph g { h.graph g with nodes := l }

theorem listing_self (h : Heap) (g : GraphId) : listing h g (h.graph g).nodes = h := by
  simp [listing, Heap.setGraph]

theorem listing_nodes (h : Heap) (g : GraphId) (l : List NodeId) : ((listing h g l).graph g).nodes = l := by
  simp [listing]

/-- A node is moved next to another that is listed. -/
theorem moveEventNode_returns (hp : p ∈ l) (hpn : p ≠ n) (hk : k ≤ 1) :
    moveEventNode g n (some p) k (listing h g l) = some ((), listing h g (move l n ((l.erase n).idxOf p + k))) := by
  have hlt : (l.erase n).idxOf p < (l.erase n).length := idxOf_lt_length_of_mem ((mem_erase_of_ne hpn).mpr hp)
  have hle : ¬ (l.erase n).length < (l.erase n).idxOf p + k := by omega
  simp only [moveEventNode, get_bind_apply, listing_nodes, if_neg hle, edit]
  simp [listing, Heap.setGraph, move]

/-- The list after the events of a list have been moved. -/
structure Arranged (h : Heap) (g : GraphId) (d l : List NodeId) : Prop where
  perm : l.Perm (h.graph g).nodes
  order : h.InTopologicalOrder l
  recv : ∀ n ∈ d, Node.getType h n = "Recv" → ∀ p, Node.getOutControlNodes h n = [p] → h.NextTo l n p
  send : ∀ n ∈ d, Node.getType h n = "Send" → ∀ p, Node.getInControlNodes h n = [p] → h.NextTo l p n

/-- What a move of an event node leaves of two others that are next to each other. -/
theorem nextTo_move (hl : l.Nodup) (hk : k ≤ (l.erase n).length) (hn : Node.isEvent h n = true) (hu : n ≠ u) (hv : n ≠ v)
    (hnext : h.NextTo l u v) : h.NextTo (move l n k) u v := by
  refine ⟨(sublist_move_iff hl (by simp [hu, hv]) hk).mpr hnext.before, fun x hx => ?_⟩
  by_cases hnx : n = x
  · exact hnx ▸ hn
  · exact hnext.between x ((sublist_move_iff hl (by simp [hu, hv, hnx]) hk).mp hx)

/-- Neighbours are next to each other. -/
theorem nextTo_of_neighbours (hl : l.Nodup) {a b : List NodeId} (hab : l = a ++ u :: v :: b) : h.NextTo l u v := by
  subst hab
  exact ⟨sublist_append_of_sublist_right (by simp), fun x hx => absurd hx (not_sublist_between hl x)⟩

/-- A move keeps the order when the edges of the node are respected at its new place. -/
theorem inTopologicalOrder_move (hn : n ∈ l) (hk : k ≤ (l.erase n).length)
    (hout : ∀ v ∈ l, h.Ahead n v → [n, v].Sublist (move l n k)) (hin : ∀ u ∈ l, h.Ahead u n → [u, n].Sublist (move l n k))
    (ho : h.InTopologicalOrder l) : h.InTopologicalOrder (move l n k) := by
  have hperm := perm_move hn hk
  refine ⟨hperm.nodup_iff.mpr ho.once, fun u hu v hv huv => ?_⟩
  have hu := hperm.mem_iff.mp hu
  have hv := hperm.mem_iff.mp hv
  by_cases hnu : n = u
  · subst hnu
    exact hout v hv huv
  · by_cases hnv : n = v
    · subst hnv
      exact hin u hu huv
    · exact (sublist_move_iff ho.once (by simp [hnu, hnv]) hk).mpr (ho.ahead u hu v hv huv)

/-! ## One event node -/

theorem anyEdge_of_ahead (huv : h.Ahead u v) : h.AnyEdge u v := by
  obtain ⟨a, b, hb, hka, ha, hv, -⟩ := huv
  exact ⟨a, b, hb, hka, ha, hv, rfl⟩

/-- The nodes of the graph exist, its links are sound, and its event nodes have no edges but those with their partners. -/
structure Movable (h : Heap) (g : GraphId) : Prop where
  sound : h.Sound
  made : ∀ n ∈ (h.graph g).nodes, n < h.nodeCount
  partnered : h.EventsPartnered g
  plain : h.EventsPlain g

/-- An event node is moved to where it is next to the nodes its edges lead to and come from. -/
theorem arranged_move (hm : Movable h g) (ha : Arranged h g d l) (hd : ∀ m ∈ d, m ∈ (h.graph g).nodes)
    (hn : n ∈ (h.graph g).nodes) (hevent : Node.isEvent h n = true) (hk : k ≤ (l.erase n).length)
    (hout : ∀ v, h.Ahead n v → h.NextTo (move l n k) n v) (hin : ∀ u, h.Ahead u n → h.NextTo (move l n k) u n) :
    Arranged h g (d ++ [n]) (move l n k) := by
  have hnl : n ∈ l := ha.perm.mem_iff.mpr hn
  have hmade : ∀ m ∈ d ++ [n], m < h.nodeCount := fun m hmem =>
    hm.made m ((mem_append.mp hmem).elim (hd m) fun hmn => mem_singleton.mp hmn ▸ hn)
  have hearlier : ∀ m ∈ d ++ [n], n ≠ m → m ∈ d := fun m hmem hnm =>
    (mem_append.mp hmem).resolve_right fun hmn => hnm (mem_singleton.mp hmn).symm
  refine ⟨(perm_move hnl hk).trans ha.perm, inTopologicalOrder_move hnl hk (fun v _ hv => (hout v hv).before)
    (fun u _ hu => (hin u hu).before) ha.order, fun m hmem hmt q hq => ?_, fun m hmem hmt q hq => ?_⟩
  · have hmq : h.Ahead m q := edge_of_outControl hm.sound.laid (hmade m hmem) hq
    by_cases hnm : n = m
    · subst hnm
      exact hout q hmq
    · by_cases hnq : n = q
      · subst hnq
        exact hin m hmq
      · exact nextTo_move ha.order.once hk hevent hnm hnq (ha.recv m (hearlier m hmem hnm) hmt q hq)
  · have hqm : h.Ahead q m := edge_of_inControl hm.sound (hmade m hmem) hq
    by_cases hnm : n = m
    · subst hnm
      exact hin q hqm
    · by_cases hnq : n = q
      · subst hnq
        exact hout m hqm
      · exact nextTo_move ha.order.once hk hevent hnq hnm (ha.send m (hearlier m hmem hnm) hmt q hq)

/-- A node that receives is moved in front of its partner. -/
theorem arranged_recv (hm : Movable h g) (ha : Arranged h g d l) (hd : ∀ m ∈ d, m ∈ (h.graph g).nodes)
    (hn : n ∈ (h.graph g).nodes) (htype : Node.getType h n = "Recv") :
    ∃ l', moveEventNode g n (Node.getOutControlNodes h n).head? 0 (listing h g l) = some ((), listing h g l') ∧
      Arranged h g (d ++ [n]) l' := by
  obtain ⟨hnone, p, hp, hout⟩ := hm.partnered.recv n hn htype
  have hnp : h.Ahead n p := edge_of_outControl hm.sound.laid (hm.made n hn) hout
  have hpn : p ≠ n := by
    rintro rfl
    exact hnone p (anyEdge_of_ahead hnp)
  have hpl : p ∈ l := ha.perm.mem_iff.mpr hp
  have hnl : n ∈ l := ha.perm.mem_iff.mpr hn
  have hk : (l.erase n).idxOf p ≤ (l.erase n).length :=
    Nat.le_of_lt (idxOf_lt_length_of_mem ((mem_erase_of_ne hpn).mpr hpl))
  have hevent : Node.isEvent h n = true := by simp [Node.isEvent, htype]
  obtain ⟨a, b, hab⟩ := move_before hpl hpn
  have hnext : h.NextTo (move l n ((l.erase n).idxOf p)) n p :=
    nextTo_of_neighbours ((perm_move hnl hk).nodup_iff.mpr ha.order.once) hab
  refine ⟨move l n ((l.erase n).idxOf p), ?_, arranged_move hm ha hd hn hevent hk (fun v hv => ?_) fun u hu => ?_⟩
  · rw [hout]
    exact moveEventNode_returns hpl hpn (Nat.zero_le 1)
  · obtain rfl : p = v := by simpa [hout] using hm.plain.recv n hn htype v (anyEdge_of_ahead hv)
    exact hnext
  · exact absurd (anyEdge_of_ahead hu) (hnone u)

/-- A node that sends is moved behind its partner. -/
theorem arranged_send (hm : Movable h g) (ha : Arranged h g d l) (hd : ∀ m ∈ d, m ∈ (h.graph g).nodes)
    (hn : n ∈ (h.graph g).nodes) (htype : Node.getType h n = "Send") :
    ∃ l', moveEventNode g n (Node.getInControlNodes h n).head? 1 (listing h g l) = some ((), listing h g l') ∧
      Arranged h g (d ++ [n]) l' := by
  obtain ⟨hnone, p, hp, hin⟩ := hm.partnered.send n hn htype
  have hpn' : h.Ahead p n := edge_of_inControl hm.sound (hm.made n hn) hin
  have hpn : p ≠ n := by
    rintro rfl
    exact hnone p (anyEdge_of_ahead hpn')
  have hpl : p ∈ l := ha.perm.mem_iff.mpr hp
  have hnl : n ∈ l := ha.perm.mem_iff.mpr hn
  have hk : (l.erase n).idxOf p + 1 ≤ (l.erase n).length :=
    idxOf_lt_length_of_mem ((mem_erase_of_ne hpn).mpr hpl)
  have hevent : Node.isEvent h n = true := by simp [Node.isEvent, htype]
  obtain ⟨a, b, hab⟩ := move_behind hpl hpn
  have hnext : h.NextTo (move l n ((l.erase n).idxOf p + 1)) p n :=
    nextTo_of_neighbours ((perm_move hnl hk).nodup_iff.mpr ha.order.once) hab
  refine ⟨move l n ((l.erase n).idxOf p + 1), ?_, arranged_move hm ha hd hn hevent hk (fun v hv => ?_) fun u hu => ?_⟩
  · rw [hin]
    exact moveEventNode_returns hpl hpn (Nat.le_refl 1)
  · exact absurd (anyEdge_of_ahead hv) (hnone v)
  · obtain rfl : p = u := by simpa [hin] using hm.plain.send n hn htype u (anyEdge_of_ahead hu)
    exact hnext

/-- A node of another type stays. -/
theorem arranged_other (ha : Arranged h g d l) (hevent : ¬ Node.isEvent h n = true) : Arranged h g (d ++ [n]) l := by
  have hnot : Node.getType h n ≠ "Recv" ∧ Node.getType h n ≠ "Send" := by simpa [Node.isEvent] using hevent
  refine ⟨ha.perm, ha.order, fun m hmd hmt q hq => ?_, fun m hmd hmt q hq => ?_⟩
  · rcases mem_append.mp hmd with hmd | hmn
    · exact ha.recv m hmd hmt q hq
    · exact absurd (mem_singleton.mp hmn ▸ hmt) hnot.1
  · rcases mem_append.mp hmd with hmd | hmn
    · exact ha.send m hmd hmt q hq
    · exact absurd (mem_singleton.mp hmn ▸ hmt) hnot.2

/-! ## The loop -/

/-- The rest of the nodes is gone through one by one. -/
theorem reorderEventNodes_returns (hm : Movable h g) :
    ∀ (r d l : List NodeId), (∀ m ∈ d ++ r, m ∈ (h.graph g).nodes) → Arranged h g d l →
      ∃ l', reorderEventNodes g r (listing h g l) = some ((), listing h g l') ∧ Arranged h g (d ++ r) l' := by
  intro r
  induction r with
  | nil =>
    intro d l _ ha
    exact ⟨l, rfl, by simpa using ha⟩
  | cons n r ih =>
    intro d l hin ha
    have hn : n ∈ (h.graph g).nodes := hin n (by simp)
    have hd : ∀ m ∈ d, m ∈ (h.graph g).nodes := fun m hmd => hin m (by simp [hmd])
    have happ : d ++ n :: r = d ++ [n] ++ r := by simp
    have hrest : ∀ {l'}, Arranged h g (d ++ [n]) l' →
        ∃ l'', reorderEventNodes g r (listing h g l') = some ((), listing h g l'') ∧ Arranged h g (d ++ n :: r) l'' := by
      intro l' ha'
      rw [happ] at hin ⊢
      exact ih (d ++ [n]) l' hin ha'
    have htype : ∀ l', Node.getType (listing h g l') n = Node.getType h n := fun _ => rfl
    rw [reorderEventNodes]
    by_cases hrecv : Node.getType h n = "Recv"
    · obtain ⟨l', hmove, ha'⟩ := arranged_recv hm ha hd hn hrecv
      obtain ⟨l'', hrun, ha''⟩ := hrest ha'
      have hsend : Node.getType h n ≠ "Send" := by rw [hrecv]; decide
      refine ⟨l'', ?_, ha''⟩
      simp only [get_bind_apply, htype, if_pos hrecv, if_neg hsend]
      exact (bind_of_eq hmove).trans hrun
    · by_cases hsend : Node.getType h n = "Send"
      · obtain ⟨l', hmove, ha'⟩ := arranged_send hm ha hd hn hsend
        obtain ⟨l'', hrun, ha''⟩ := hrest ha'
        refine ⟨l'', ?_, ha''⟩
        simp only [get_bind_apply, htype, if_neg hrecv, if_pos hsend]
        exact (bind_of_eq hmove).trans hrun
      · obtain ⟨l'', hrun, ha''⟩ := hrest (arranged_other ha (by simp [Node.isEvent, hrecv, hsend]))
        refine ⟨l'', ?_, ha''⟩
        simp only [get_bind_apply, htype, if_neg hrecv, if_neg hsend]
        exact hrun

end EventAux

open EventAux

/-- In a sorted graph whose nodes have descriptors of their own and whose event nodes have no edges but those with their
partners, `InsertEventNodes` moves each event node next to its partner and keeps the graph sorted. -/
theorem insertEventNodes_moves (h : Heap) (g : GraphId) (hs : h.Sound) (hmade : ∀ n ∈ (h.graph g).nodes, n < h.nodeCount)
    (horder : h.InTopologicalOrder (h.graph g).nodes) (hown : h.OwnDescriptors g) (hpart : h.EventsPartnered g)
    (hplain : h.EventsPlain g) : ∃ h', insertEventNodes g h = some (true, h') ∧ h.EventsMoved h' g := by
  obtain ⟨l, hrun, ha⟩ := reorderEventNodes_returns ⟨hs, hmade, hpart, hplain⟩ (h.graph g).nodes [] (h.graph g).nodes
    (by simp) ⟨.refl _, horder, nofun, nofun⟩
  rw [listing_self] at hrun
  rw [nil_append] at ha
  let t := setIds l 0 (listing h g l)
  let h' := t.setGraph g { t.graph g with directNodesSize := (t.graph g).nodes.length }
  have hnodes : (h'.graph g).nodes = l := by
    simp [h', t, listing_nodes]
  have hre : Reordered (listing h g l) t := reordered_setIds l 0 _
  have hahead : h'.Ahead = h.Ahead := hre.ahead
  have htype : ∀ n, Node.getType h' n = Node.getType h n := by
    intro n
    obtain ⟨i, hi⟩ := hre.desc n
    exact congrArg (fun x => x.opDef.type) hi
  have hnext : ∀ {u v}, h.NextTo l u v → h'.NextTo (h'.graph g).nodes u v := by
    intro u v hn
    rw [hnodes]
    refine ⟨hn.before, fun x hx => ?_⟩
    have hx := hn.between x hx
    simpa only [Node.isEvent, htype] using hx
  refine ⟨h', ?_, hnodes ▸ ha.perm, ?_, fun i n hn => ?_, fun n hn hr p hp => ?_, fun n hn hr p hp => ?_⟩
  · rw [insertEventNodes, get_bind_apply, bind_of_eq hrun]
    simp only [edit, modify_bind_apply, listing_nodes]
    rfl
  · rw [hnodes]
    exact ⟨ha.order.once, fun u hu v hv huv => ha.order.ahead u hu v hv (hahead ▸ huv)⟩
  · rw [hnodes] at hn
    have hops : (l.map fun n => ((listing h g l).node n).op).Nodup := (ha.perm.map _).nodup_iff.mpr hown
    have hid : (t.desc n).getId = (0 : Nat) + i := SortOrder.setIds_id l 0 _ hops i n hn
    have hdesc : h'.desc n = t.desc n := rfl
    rw [hdesc]
    omega
  · exact hnext (ha.recv n hn hr p hp)
  · exact hnext (ha.send n hn hr p hp)

namespace EventWitness

/-- A node receives and controls another, that one controls a node that sends; two more nodes are joined by data. -/
def joined : List LinkCall :=
  [.newOp { opDef := { name := "r", type := "Recv" } }, .newNode 0,
    .newOp { opDef := { name := "q", type := "Relu" }, outputsDesc := [{}] }, .newNode 1,
    .newOp { opDef := { name := "p", type := "Relu" } }, .newNode 2,
    .newOp { opDef := { name := "t", type := "Relu" }, inputsDesc := [{}] }, .newNode 3,
    .newOp { opDef := { name := "s", type := "Send" } }, .newNode 4,
    .addControlEdge (some 1) (some 5), .addDataEdge (some 4) (some 9), .addControlEdge (some 6) (some 10)]

/-- A node receives, controls one node and feeds another. -/
def feeding : List LinkCall :=
  [.newOp { opDef := { name := "r", type := "Recv" }, outputsDesc := [{}] }, .newNode 0,
    .newOp { opDef := { name := "q", type := "Relu" }, inputsDesc := [{}] }, .newNode 1,
    .newOp { opDef := { name := "p", type := "Relu" } }, .newNode 2,
    .addDataEdge (some 2) (some 5), .addControlEdge (some 1) (some 6)]

/-- Two nodes are made over one descriptor. -/
def sharing : List LinkCall :=
  [.newOp { opDef := { name := "x", type := "Relu" } }, .newNode 0, .newNode 0]

/-- The graph of nodes made by calls. -/
def graphOf (calls : List LinkCall) (nodes : List NodeId) : Heap :=
  GraphSteps.addAll 0 ((LinkCall.runAll calls).getD .empty) nodes

def joinedGraph : Heap := graphOf joined [0, 1, 2, 3, 4]

def feedingGraph : Heap := graphOf feeding [0, 1, 2]

def sharingGraph : Heap := graphOf sharing [0, 1]

theorem sound_graphs : joinedGraph.Sound ∧ feedingGraph.Sound ∧ sharingGraph.Sound :=
  ⟨sound_addAll 0 _ (sound_runAll joined _ (by decide +kernel) rfl),
    sound_addAll 0 _ (sound_runAll feeding _ (by decide +kernel) rfl),
    sound_addAll 0 _ (sound_runAll sharing _ (by decide +kernel) rfl)⟩

/-- The order of a list and the edges of event nodes are read off the links. -/
theorem ordered_of_links {h : Heap} {g : GraphId} (honce : (h.graph g).nodes.Nodup)
    (hlinks : ∀ a, ∀ b ∈ h.peers a, (h.kind a).isIn = false → [h.owner a, h.owner b].Sublist (h.graph g).nodes ∧
      Node.getType h (h.owner b) ≠ "Recv" ∧ Node.getType h (h.owner a) ≠ "Send")
    (hrecv : ∀ n ∈ (h.graph g).nodes, Node.getType h n = "Recv" →
      ∃ p ∈ (h.graph g).nodes, Node.getOutControlNodes h n = [p])
    (hsend : ∀ n ∈ (h.graph g).nodes, Node.getType h n = "Send" →
      ∃ p ∈ (h.graph g).nodes, Node.getInControlNodes h n = [p]) :
    h.InTopologicalOrder (h.graph g).nodes ∧ h.EventsPartnered g := by
  refine ⟨⟨honce, ?_⟩, fun n hn ht => ⟨?_, hrecv n hn ht⟩, fun n hn ht => ⟨?_, hsend n hn ht⟩⟩
  · rintro - - - - ⟨a, b, hb, hk, rfl, rfl, -⟩
    exact (hlinks a b hb hk).1
  · rintro - ⟨a, b, hb, hk, rfl, rfl, -⟩
    exact (hlinks a b hb hk).2.1 ht
  · rintro - ⟨a, b, hb, hk, rfl, rfl, -⟩
    exact (hlinks a b hb hk).2.2 ht

theorem insertEventNodes_moves_joined : ∃ h', insertEventNodes 0 joinedGraph = some (true, h') ∧
    joinedGraph.EventsMoved h' 0 := by
  have hlinks := sound_graphs.1.forall_peers (P := fun a b => (joinedGraph.kind a).isIn = false →
    [joinedGraph.owner a, joinedGraph.owner b].Sublist (joinedGraph.graph 0).nodes ∧
      Node.getType joinedGraph (joinedGraph.owner b) ≠ "Recv" ∧ Node.getType joinedGraph (joinedGraph.owner a) ≠ "Send")
    (by decide +kernel)
  obtain ⟨horder, hpart⟩ := ordered_of_links (h := joinedGraph) (g := 0) (by decide +kernel) hlinks (by decide +kernel)
    (by decide +kernel)
  have hplain := sound_graphs.1.forall_peers (P := fun a b => (joinedGraph.kind a).isIn = false →
    (Node.getType joinedGraph (joinedGraph.owner a) = "Recv" →
      Node.getOutControlNodes joinedGraph (joinedGraph.owner a) = [joinedGraph.owner b]) ∧
    (Node.getType joinedGraph (joinedGraph.owner b) = "Send" →
      Node.getInControlNodes joinedGraph (joinedGraph.owner b) = [joinedGraph.owner a]))
    (by decide +kernel)
  refine insertEventNodes_moves joinedGraph 0 sound_graphs.1 (by decide +kernel) horder (by decide +kernel) hpart
    ⟨fun n _ ht v hv => ?_, fun n _ ht u hu => ?_⟩
  · obtain ⟨a, b, hb, hk, rfl, rfl, -⟩ := hv
    exact (hplain a b hb hk).1 ht
  · obtain ⟨a, b, hb, hk, rfl, rfl, -⟩ := hu
    exact (hplain a b hb hk).2 ht

/-- A node that receives and feeds another is moved behind it. -/
theorem order_lost : ¬ ∀ (h : Heap) (g : GraphId), h.Sound → (∀ n ∈ (h.graph g).nodes, n < h.nodeCount) →
      h.InTopologicalOrder (h.graph g).nodes → h.OwnDescriptors g → h.EventsPartnered g →
      ∃ h', insertEventNodes g h = some (true, h') ∧ h.EventsMoved h' g := by
  intro hall
  have hlinks := sound_graphs.2.1.forall_peers (P := fun a b => (feedingGraph.kind a).isIn = false →
    [feedingGraph.owner a, feedingGraph.owner b].Sublist (feedingGraph.graph 0).nodes ∧
      Node.getType feedingGraph (feedingGraph.owner b) ≠ "Recv" ∧ Node.getType feedingGraph (feedingGraph.owner a) ≠ "Send")
    (by decide +kernel)
  obtain ⟨horder, hpart⟩ := ordered_of_links (h := feedingGraph) (g := 0) (by decide +kernel) hlinks (by decide +kernel)
    (by decide +kernel)
  obtain ⟨h', hr, hmoved⟩ := hall feedingGraph 0 sound_graphs.2.1 (by decide +kernel) horder (by decide +kernel) hpart
  have hrun : (insertEventNodes 0 feedingGraph).map (fun r => ((r.2.graph 0).nodes, decide (r.2.owner 2 = 0 ∧
      r.2.owner 5 = 1 ∧ 5 ∈ r.2.peers 2 ∧ r.2.kind 2 = .outData ∧ r.2.isLoopLink 2 5 = false))) = some ([1, 0, 2], true) := by
    decide +kernel
  rw [hr, Option.map_some, Option.some.injEq, Prod.mk.injEq, decide_eq_true_eq] at hrun
  obtain ⟨hnodes, hout, hin, hpeer, hkind, hloop⟩ := hrun
  have hedge : h'.Ahead 0 1 := ⟨2, 5, hpeer, by rw [hkind]; rfl, hout, hin, by simpa using hloop⟩
  have hsub := hmoved.order.ahead 0 (by rw [hnodes]; decide) 1 (by rw [hnodes]; decide) hedge
  rw [hnodes] at hsub
  exact absurd hsub (by decide)

/-- Two nodes of one descriptor get one id. -/
theorem id_shared : ¬ ∀ (h : Heap) (g : GraphId), h.Sound → (∀ n ∈ (h.graph g).nodes, n < h.nodeCount) →
      h.InTopologicalOrder (h.graph g).nodes → h.EventsPartnered g → h.EventsPlain g →
      ∃ h', insertEventNodes g h = some (true, h') ∧ h.EventsMoved h' g := by
  intro hall
  have hlinks := sound_graphs.2.2.forall_peers (P := fun a b => (sharingGraph.kind a).isIn = false →
    [sharingGraph.owner a, sharingGraph.owner b].Sublist (sharingGraph.graph 0).nodes ∧
      Node.getType sharingGraph (sharingGraph.owner b) ≠ "Recv" ∧ Node.getType sharingGraph (sharingGraph.owner a) ≠ "Send")
    (by decide +kernel)
  obtain ⟨horder, hpart⟩ := ordered_of_links (h := sharingGraph) (g := 0) (by decide +kernel) hlinks (by decide +kernel)
    (by decide +kernel)
  have htypes : ∀ n ∈ (sharingGraph.graph 0).nodes, Node.isEvent sharingGraph n = false := by decide +kernel
  obtain ⟨h', hr, hmoved⟩ := hall sharingGraph 0 sound_graphs.2.2 (by decide +kernel) horder hpart
    ⟨fun n hn ht => absurd (htypes n hn) (by simp [Node.isEvent, ht]),
      fun n hn ht => absurd (htypes n hn) (by simp [Node.isEvent, ht])⟩
  have hrun : (insertEventNodes 0 sharingGraph).map (fun r => ((r.2.graph 0).nodes, (r.2.desc 0).getId)) = some ([0, 1], 1) := by
    decide +kernel
  rw [hr, Option.map_some, Option.some.injEq, Prod.mk.injEq] at hrun
  have hid := hmoved.id 0 0 (by rw [hrun.1]; rfl)
  rw [hrun.2] at hid
  exact absurd hid (by decide)

/-- Data outputs of an event node and shared descriptors each break what is promised. -/
theorem insertEventNodes_moves_false :
    (¬ ∀ (h : Heap) (g : GraphId), h.Sound → (∀ n ∈ (h.graph g).nodes, n < h.nodeCount) →
      h.InTopologicalOrder (h.graph g).nodes → h.OwnDescriptors g → h.EventsPartnered g →
      ∃ h', insertEventNodes g h = some (true, h') ∧ h.EventsMoved h' g) ∧
    ¬ ∀ (h : Heap) (g : GraphId), h.Sound → (∀ n ∈ (h.graph g).nodes, n < h.nodeCount) →
      h.InTopologicalOrder (h.graph g).nodes → h.EventsPartnered g → h.EventsPlain g →
      ∃ h', insertEventNodes g h = some (true, h') ∧ h.EventsMoved h' g :=
  ⟨order_lost, id_shared⟩

end EventWitness

end Metadef
