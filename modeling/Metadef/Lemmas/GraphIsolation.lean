import Metadef.Lemmas.TakingOver

/-!
# The rounds of an isolation in a graph

The loops of `ComputeGraph::IsolateNode`, each with the links it takes off the node and the edges it adds. The first data source
that is no constant takes over the links of the outputs; when there is none, the first control source takes over those to control
inputs; a data source of the control input comes to control all nodes that came next.
-/

namespace Metadef

open List Function

open Cmd Heap LinkAux IsolateAux ComputeGraph SingleLinkAux

namespace TakingAux

variable {h₀ h : Heap} {n : NodeId} {A : NodeId → NodeId → Prop} {own : AnchorId → List AnchorId} {s o : AnchorId}
variable {addEdge : Option AnchorId → Option AnchorId → Cmd Heap Bool} {k : AnchorKind}

/-! ## Takers -/

/-- The source of an input of the node may take links over. -/
theorem taker_of_peer (hs : h₀.Sound) (hd : h₀.Directed) (hloop : NoLoop h₀ n) {a : AnchorId} (ha : h₀.owner a = n)
    (hk : (h₀.kind a).isIn = true) (hp : s ∈ h₀.peers a) : Taker h₀ n s :=
  ⟨hs.peersHeld a s hp, by rw [hd a s hp, hk]; rfl, hloop a s ha hp⟩

/-- So may the control output of its node. -/
theorem Taker.control (hs : h₀.Sound) (ht : Taker h₀ n s) :
    Taker h₀ n (h₀.node (h₀.owner s)).outControlAnchor ∧ h₀.owner (h₀.node (h₀.owner s)).outControlAnchor = h₀.owner s := by
  have hmem : (h₀.node (h₀.owner s)).outControlAnchor ∈ h₀.anchorsOf (h₀.owner s) .outControl := mem_singleton_self _
  have howner := hs.laid.owner _ ht.held.1 .outControl _ hmem
  have hkind := hs.laid.kind _ ht.held.1 .outControl _ hmem
  exact ⟨⟨hs.laid.held ht.held.1 hmem, by rw [hkind]; rfl, by rw [howner]; exact ht.away⟩, howner⟩

/-! ## Moving and removing links -/

/-- An overload of `AddEdge` links an output to an input of a class exactly where there is room. -/
def AddsTo (addEdge : Option AnchorId → Option AnchorId → Cmd Heap Bool) (k : AnchorKind) : Prop :=
  ∀ s x h, Succeeds (k = .inData → h.peers x = []) (addEdge (some s) (some x)) h
    fun t => (k = .inData → h.peers x = []) ∧ t = Anchor.linked h s x

theorem addsTo_dataEdge : AddsTo GraphUtils.addDataEdge .inData := by
  intro s x h
  refine ⟨fun t ht => ?_, fun hroom => ⟨Anchor.linked h s x, ?_⟩⟩
  · have hlink : Anchor.link s (some x) (fun h dest => (h.peers dest).isEmpty) h = some (true, t) := ht
    rcases link_cases hlink with ⟨hok, -⟩ | ⟨-, o, ho, hfree, rfl⟩
    · cases hok
    · obtain rfl := Option.some.inj ho
      exact ⟨fun _ => List.isEmpty_iff.mp hfree, rfl⟩
  · simp [GraphUtils.addDataEdge, GraphUtils.addEdgeBy, OutDataAnchor.linkTo, Anchor.link, hroom rfl]

theorem addsTo_dataControlEdge : AddsTo GraphUtils.addDataControlEdge .inControl :=
  fun _ _ _ => .of_eq rfl ⟨nofun, rfl⟩

theorem addsTo_controlEdge : AddsTo GraphUtils.addControlEdge .inControl := fun _ _ _ => .of_eq rfl ⟨nofun, rfl⟩

/-- The edge from the node of a taker to that of a peer. -/
def edgeFrom (h₀ : Heap) (s b : AnchorId) (u v : NodeId) : Prop := u = h₀.owner s ∧ v = h₀.owner b

/-- Moving the links to peers of a class. -/
theorem takes_movePeersOf (hloop : NoLoop h₀ n) (hadd : AddsTo addEdge k) (hk : k.isIn = true) (hs : Taker h₀ n s)
    (ho : h₀.owner o = n) : Takes h₀ n (movePeersOf addEdge k s o) [o] (fun _ b => h₀.kind b = k) (edgeFrom h₀ s) := by
  refine takes_class ho k fun A own h ht b hb hkb => ?_
  obtain ⟨m, hm, htm, hpeers⟩ := ht.unlink hloop ho hb (.inl ⟨rfl, rfl⟩)
  have hmem : b ∈ h.peers o := ht.own o ho ▸ hb
  have hbn : h₀.owner b ≠ n := hloop o b ho (ht.kept ho hb)
  have hbo : b ≠ o := fun hbo => hbn (hbo ▸ ho)
  have hheld : h₀.Held b := (ht.layout.held b).mp (ht.sound.peersHeld o b hmem)
  have hroom : SinglePeers h₀ → k = .inData → m.peers b = [] := by
    intro hsingle hdata
    rw [hpeers, if_neg hbo, if_pos rfl]
    have hone := ht.single hsingle b (by rw [ht.layout.kind, hkb, hdata])
    have hlen := length_erase_of_mem (ht.sound.symm.mem hmem)
    exact eq_nil_of_length_eq_zero (by omega)
  refine (Succeeds.of_eq (Q := fun t => t = m) hm rfl).andThen fun t htm' => ?_
  subst htm'
  refine ((hadd s b t).imp hroom).mono fun t' ⟨hfree, ht'⟩ => ht' ▸ ?_
  exact htm.link hs hheld (by rw [hkb, hk]) hbn fun hdata => hfree (hkb.symm.trans hdata)

/-- Removing the links to peers of a class. -/
theorem takes_removePeersOf (hloop : NoLoop h₀ n) (k : AnchorKind) (ho : h₀.owner o = n) :
    Takes h₀ n (removePeersOf k o) [o] (fun _ b => h₀.kind b = k) (fun _ _ _ => False) := by
  refine takes_class ho k fun A own h ht b hb _ => ?_
  obtain ⟨m, hm, htm, -⟩ := ht.unlink hloop ho hb (.inl ⟨rfl, rfl⟩)
  exact .of_eq hm (htm.congr (fun u v => by simp) fun _ _ => rfl)

/-- The links of an output but those of a control output to data inputs. -/
def unlessDriven (h₀ : Heap) (o b : AnchorId) : Bool := h₀.kind o = .outData || h₀.kind b = .inControl

variable {c : Cmd Heap Bool} {e : AnchorId → NodeId → NodeId → Prop}
  {q : AnchorId → AnchorId → Bool} {taker next : Option AnchorId}
  {own own' : AnchorId → List AnchorId} {x : AnchorId}

/-- The links to both classes of inputs are all links of a data output. -/
theorem Takes.ofOutput (hd : h₀.Directed) (ho : h₀.owner o = n)
    (hk : h₀.kind o = .outData) (hc : Takes h₀ n c [o] (fun _ b => h₀.kind b = .inData || h₀.kind b = .inControl) e) :
    Takes h₀ n c [o] (unlessDriven h₀) e := by
  refine hc.congr (fun a ha => mem_singleton.mp ha ▸ ho) fun a ha b hb => ?_
  obtain rfl := mem_singleton.mp ha
  have hin : (h₀.kind b).isIn = true := by
    rw [hd a b hb, hk]
    rfl
  unfold unlessDriven
  rw [hk]
  cases hkb : h₀.kind b with
  | inData | inControl => rfl
  | outData | outControl => rw [hkb] at hin; cases hin

/-- The links of the control output to control inputs are all that count. -/
theorem Takes.ofControl (ho : h₀.owner o = n)
    (hk : h₀.kind o = .outControl) (hc : Takes h₀ n c [o] (fun _ b => h₀.kind b = .inControl) e) :
    Takes h₀ n c [o] (unlessDriven h₀) e := by
  refine hc.congr (fun a ha => mem_singleton.mp ha ▸ ho) fun a ha b _ => ?_
  obtain rfl := mem_singleton.mp ha
  simp [unlessDriven, hk]

/-! ## Rounds -/

/-- The source that takes over at a data input with these peers: the first, when it is a data output and its node no constant. -/
def dataTaker (h : Heap) : List AnchorId → Option AnchorId
  | [] => none
  | s :: _ => if h.kind s = .outData ∧ Node.isConst h (h.owner s) = false then some s else none

/-- What is left of the peers of a data input: the first goes when it is a data output. -/
def unfed (h : Heap) : List AnchorId → List AnchorId
  | [] => []
  | b :: l => if h.kind b = .outData then l else b :: l

/-- The first data source that takes over at a node whose data inputs have peers as given. -/
def firstTaker (h : Heap) (n : NodeId) (fed : AnchorId → List AnchorId) : Option AnchorId :=
  ((h.node n).inDataAnchors.filterMap fun a => dataTaker h (fed a)).head?

/-- The edges added when a taker, if there is one, takes over the links of the outputs that a test picks. -/
def TakenOver (h₀ : Heap) (n : NodeId) (q : AnchorId → AnchorId → Bool) (taker : Option AnchorId)
    (own : AnchorId → List AnchorId) (u v : NodeId) : Prop :=
  ∃ s ∈ taker, ∃ o ∈ h₀.outAnchors n, ∃ b ∈ own o, q o b = true ∧ edgeFrom h₀ s b u v

/-- What a taker leaves of the peers of an output. -/
def leftOver (q : AnchorId → AnchorId → Bool) (taker : Option AnchorId) (own : AnchorId → List AnchorId) (x : AnchorId) :
    List AnchorId :=
  match taker with
  | none => own x
  | some _ => (own x).filter fun b => !q x b

/-- The test for links to control inputs. -/
def toControl (h₀ : Heap) (_ b : AnchorId) : Bool := h₀.kind b = .inControl

/-- The edges an isolation in a graph adds: those of the first data source that is no constant, or without one those of the first
control source, and those of the data sources of the control input. -/
def TakesOver (h₀ : Heap) (n : NodeId) (fed : AnchorId → List AnchorId) (u v : NodeId) : Prop :=
  TakenOver h₀ n (unlessDriven h₀) (firstTaker h₀ n fed) h₀.peers u v ∨
  (firstTaker h₀ n fed = none ∧ TakenOver h₀ n (toControl h₀)
    (InControlAnchor.getPeerOutControlAnchors h₀ (h₀.node n).inControlAnchor).head? h₀.peers u v) ∨
  ∃ p ∈ InControlAnchor.getPeerOutDataAnchors h₀ (h₀.node n).inControlAnchor, u = h₀.owner p ∧ v ∈ Node.getOutAllNodes h₀ n

/-- The peers an isolation leaves an anchor: what is left of those of a data input, and the data inputs a control output drives. -/
def leftAt (h : Heap) (fed : AnchorId → List AnchorId) (a : AnchorId) : List AnchorId :=
  match h.kind a with
  | .inData => unfed h (fed a)
  | .outControl => (h.peers a).filter fun b => h.kind b = .inData
  | _ => []

theorem takenOver_congr {l m : AnchorId → List AnchorId}
    (hown : ∀ o ∈ h₀.outAnchors n, l o = m o) (u v : NodeId) : TakenOver h₀ n q taker l u v ↔ TakenOver h₀ n q taker m u v := by
  refine exists_congr fun s => and_congr_right fun _ => exists_congr fun o => and_congr_right fun ho => ?_
  rw [hown o ho]

/-- After a taker nothing is left to be taken over. -/
theorem takenOver_two (hown : ∀ o ∈ h₀.outAnchors n, own' o = leftOver q taker own o) (u v : NodeId) :
    TakenOver h₀ n q taker own u v ∨ TakenOver h₀ n q next own' u v ↔
      TakenOver h₀ n q (taker.or next) own u v := by
  cases taker with
  | none =>
    rw [takenOver_congr (l := own') (m := own) fun o ho => by rw [hown o ho, leftOver]]
    simp [TakenOver]
  | some s =>
    refine or_iff_left ?_
    rintro ⟨-, -, o, ho, b, hb, hq, -⟩
    rw [hown o ho, leftOver] at hb
    have hnot := (mem_filter.mp hb).2
    simp [hq] at hnot

/-- Two takers in turn leave what the first of them leaves. -/
theorem leftOver_two (hown : own' x = leftOver q taker own x) : leftOver q next own' x = leftOver q (taker.or next) own x := by
  cases taker with
  | none =>
    rw [Option.none_or]
    cases next with
    | none => exact hown
    | some t => rw [leftOver, leftOver, hown, leftOver]
  | some s =>
    rw [Option.some_or]
    cases next with
    | none => exact hown
    | some t =>
      rw [leftOver, hown, leftOver, filter_filter]
      exact filter_congr fun b _ => Bool.and_self _

theorem leftOver_subset (q : AnchorId → AnchorId → Bool) (taker : Option AnchorId) (own : AnchorId → List AnchorId) (x : AnchorId) :
    leftOver q taker own x ⊆ own x := by
  cases taker with
  | none => exact List.Subset.refl _
  | some s => exact filter_subset_self _

/-- A link that is not picked is left over. -/
theorem mem_leftOver {b : AnchorId} (hb : b ∈ own x) (hq : q x b = false) : b ∈ leftOver q taker own x := by
  cases taker with
  | none => exact hb
  | some s => exact mem_filter.mpr ⟨hb, by rw [hq]; rfl⟩

/-- A taker of all links to control inputs leaves none to a control source. -/
theorem takenOver_control (hown : ∀ o ∈ h₀.outAnchors n, own o = leftOver (unlessDriven h₀) taker h₀.peers o) (u v : NodeId) :
    TakenOver h₀ n (toControl h₀) next own u v ↔ taker = none ∧ TakenOver h₀ n (toControl h₀) next h₀.peers u v := by
  cases taker with
  | none => simp [takenOver_congr (l := own) (m := h₀.peers) fun o ho => hown o ho]
  | some s =>
    refine iff_of_false ?_ (by simp)
    rintro ⟨-, -, o, ho, b, hb, hq, -⟩
    rw [hown o ho, leftOver] at hb
    have hnot := (mem_filter.mp hb).2
    have hk : h₀.kind b = .inControl := of_decide_eq_true hq
    simp [unlessDriven, hk] at hnot

theorem isConst_of_track (ht : Track h₀ n A own h) (m : NodeId) : Node.isConst h m = Node.isConst h₀ m := by
  unfold Node.isConst Node.getType Heap.desc
  rw [ht.layout.node, ht.op]

/-- A taker comes to control nodes. -/
theorem controlNodes_spec (hs : h₀.Sound) (ht : Taker h₀ n s) {nodes : List NodeId}
    (hnodes : ∀ v ∈ nodes, v < h₀.nodeCount ∧ v ≠ n) :
    ∀ {A own h}, Track h₀ n A own h → ∃ h', controlNodes s nodes h = some (true, h') ∧
      Track h₀ n (fun u v => A u v ∨ (u = h₀.owner s ∧ v ∈ nodes)) own h' := by
  intro A own h htrack
  suffices hrun : ∀ {A own m}, Track h₀ n A own m → ∃ h', Cmd.eachOk (fun next =>
      GraphUtils.addDataControlEdge (some s) (some (h₀.node next).inControlAnchor)) nodes m = some (true, h') ∧
      Track h₀ n (fun u v => A u v ∨ (u = h₀.owner s ∧ v ∈ nodes)) own h' by
    obtain ⟨h', hr, ht'⟩ := hrun htrack
    refine ⟨h', ?_, ht'⟩
    rw [controlNodes, get_bind_apply, htrack.layout.node]
    exact hr
  induction nodes with
  | nil => exact fun {A own m} hm => ⟨m, rfl, hm.congr (fun u v => by simp) fun _ _ => rfl⟩
  | cons v nodes ih =>
    intro A own m hm
    obtain ⟨hv, hvn⟩ := hnodes v mem_cons_self
    have hmem : (h₀.node v).inControlAnchor ∈ h₀.anchorsOf v .inControl := mem_singleton_self _
    have howner := hs.laid.owner v hv .inControl _ hmem
    have hkind := hs.laid.kind v hv .inControl _ hmem
    have hlink := hm.link ht (hs.laid.held hv hmem) (by rw [hkind]; rfl) (by rw [howner]; exact hvn)
      (by rw [hkind]; nofun)
    obtain ⟨h', hr, ht'⟩ := ih (fun w hw => hnodes w (mem_cons_of_mem v hw)) hlink
    have hadd : GraphUtils.addDataControlEdge (some s) (some (h₀.node v).inControlAnchor) m =
        some (true, Anchor.linked m s (h₀.node v).inControlAnchor) := rfl
    refine ⟨h', (bind_of_eq hadd).trans hr, ht'.congr (fun u w => ?_) fun _ _ => rfl⟩
    rw [howner, or_assoc]
    simp [← and_or_left]

section Rounds

variable (hs : h₀.Sound) (hd : h₀.Directed) (hloop : NoLoop h₀ n) (hn : n < h₀.nodeCount)

include hs hn in
/-- The outputs of the node, by class. -/
theorem of_output {k : AnchorKind} (ho : o ∈ h₀.anchorsOf n k) : h₀.owner o = n ∧ h₀.kind o = k :=
  ⟨hs.laid.owner n hn k o ho, hs.laid.kind n hn k o ho⟩

include hs hn in
/-- The control input of the node. -/
theorem inControl_facts : h₀.owner (h₀.node n).inControlAnchor = n ∧ h₀.kind (h₀.node n).inControlAnchor = .inControl ∧
    (h₀.node n).inControlAnchor ∉ h₀.outAnchors n := by
  obtain ⟨howner, hkind⟩ := of_output hs hn (k := .inControl) (mem_singleton_self (h₀.node n).inControlAnchor)
  refine ⟨howner, hkind, fun hout => ?_⟩
  have hk := ((Heap.mem_outAnchors hs.laid hn).mp hout).2.2
  rw [hkind] at hk
  cases hk

include hs hn in
theorem not_inControl {o : AnchorId} {k : AnchorKind} (hk : k ≠ .inControl) (ho : o ∈ h₀.anchorsOf n k) :
    o ≠ (h₀.node n).inControlAnchor := by
  rintro rfl
  exact hk ((of_output hs hn ho).2.symm.trans (inControl_facts hs hn).2.1)

include hs hn in
theorem not_inData (ho : o ∈ h₀.outAnchors n) : o ∉ (h₀.node n).inDataAnchors := by
  intro hdata
  have hk := ((Heap.mem_outAnchors hs.laid hn).mp ho).2.2
  rw [(of_output hs hn (k := .inData) hdata).2] at hk
  cases hk

include hs hloop hn

theorem takes_takeOverControl (ht : Taker h₀ n s) :
    Takes h₀ n (takeOverControl n s) (h₀.outAnchors n) (toControl h₀) (edgeFrom h₀ s) := by
  have hmove : ∀ k, ∀ o ∈ h₀.anchorsOf n k,
      Takes h₀ n (movePeersOf GraphUtils.addControlEdge .inControl s o) [o] (fun _ b => h₀.kind b = .inControl) (edgeFrom h₀ s) :=
    fun k o ho => takes_movePeersOf hloop addsTo_controlEdge rfl ht (of_output hs hn ho).1
  intro A own h htrack
  refine ((takes_each (hmove .outData)).append (hmove .outControl _ (mem_singleton_self _)) A own h htrack).congr ?_
  rw [takeOverControl, get_bind_apply, htrack.layout.node]
  rfl

include hd

theorem takes_takeOverData (ht : Taker h₀ n s) : Takes h₀ n (takeOverData n s) (h₀.outAnchors n) (unlessDriven h₀)
    (edgeFrom h₀ s) := by
  obtain ⟨hcontrol, howner⟩ := ht.control hs
  have hdata : ∀ o ∈ h₀.anchorsOf n .outData, Takes h₀ n (moveOutData s o) [o] (unlessDriven h₀) (edgeFrom h₀ s) := by
    intro o ho
    obtain ⟨hon, hko⟩ := of_output hs hn ho
    exact .ofOutput hd hon hko ((takes_movePeersOf hloop addsTo_dataEdge rfl ht hon).both
      (takes_movePeersOf hloop addsTo_dataControlEdge rfl ht hon))
  obtain ⟨hon, hko⟩ := of_output hs hn (k := .outControl) (mem_singleton_self (h₀.node n).outControlAnchor)
  have hlast := Takes.ofControl hon hko (takes_movePeersOf hloop addsTo_controlEdge rfl hcontrol hon)
  have hedge : edgeFrom h₀ (h₀.node (h₀.owner s)).outControlAnchor = edgeFrom h₀ s := by
    unfold edgeFrom
    rw [howner]
  rw [hedge] at hlast
  intro A own h htrack
  refine ((takes_each hdata).append hlast A own h htrack).congr ?_
  rw [takeOverData, get_bind_apply, htrack.layout.node, htrack.layout.owner]
  rfl

theorem takes_removeExtraOutEdge : Takes h₀ n (removeExtraOutEdge n) (h₀.outAnchors n) (unlessDriven h₀) (fun _ _ _ => False) := by
  have hdata : ∀ o ∈ h₀.anchorsOf n .outData, Takes h₀ n (removeOutData o) [o] (unlessDriven h₀) (fun _ _ _ => False) := by
    intro o ho
    obtain ⟨hon, hko⟩ := of_output hs hn ho
    exact .ofOutput hd hon hko ((takes_removePeersOf hloop .inData hon).both (takes_removePeersOf hloop .inControl hon))
  obtain ⟨hon, hko⟩ := of_output hs hn (k := .outControl) (mem_singleton_self (h₀.node n).outControlAnchor)
  have hlast := Takes.ofControl hon hko (takes_removePeersOf hloop .inControl hon)
  intro A own h htrack
  refine ((takes_each hdata).append hlast A own h htrack).congr ?_
  rw [removeExtraOutEdge, get_bind_apply, htrack.layout.node]
  rfl

/-- The links of an input go over to its source if it has one. -/
def isolateFrom (n : NodeId) (a : AnchorId) (h : Heap) : Option AnchorId → Cmd Heap Bool
  | some s => do
    if !(← GraphUtils.removeEdge (some s) (some a)) then return false
    if Node.isConst h (h.owner s) then return true
    takeOverData n s
  | none => return true

/-- The round over a data input. -/
theorem isolateInData_round {a : AnchorId} (ha : a ∈ h₀.anchorsOf n .inData) (ht : Track h₀ n A own h) :
    Succeeds (SinglePeers h₀) (isolateInData n a) h
      (Track h₀ n (fun u v => A u v ∨ TakenOver h₀ n (unlessDriven h₀) (dataTaker h₀ (own a)) own u v)
        fun x => if x = a then unfed h₀ (own a) else if x ∈ h₀.outAnchors n then
          leftOver (unlessDriven h₀) (dataTaker h₀ (own a)) own x else own x) := by
  obtain ⟨han, hka⟩ := of_output hs hn ha
  have hidle : dataTaker h₀ (own a) = none → unfed h₀ (own a) = own a → Track h₀ n
      (fun u v => A u v ∨ TakenOver h₀ n (unlessDriven h₀) (dataTaker h₀ (own a)) own u v)
      (fun x => if x = a then unfed h₀ (own a) else if x ∈ h₀.outAnchors n then
        leftOver (unlessDriven h₀) (dataTaker h₀ (own a)) own x else own x) h := by
    intro hnone hall
    refine ht.congr (fun u v => by simp [hnone, TakenOver]) fun x _ => ?_
    by_cases hx : x = a
    · rw [if_pos hx, hx, hall]
    · simp [hx, hnone, leftOver]
  have hrun : isolateInData n a h = isolateFrom n a h (InDataAnchor.getPeerOutAnchor h a) h := by
    rw [isolateInData, get_bind_apply]
    cases InDataAnchor.getPeerOutAnchor h a <;> rfl
  rw [InDataAnchor.getPeerOutAnchor, ht.own a han] at hrun
  cases hl : own a with
  | nil =>
    rw [hl] at hrun hidle
    exact .of_eq hrun (hidle rfl rfl)
  | cons s rest =>
    rw [hl] at hrun hidle
    simp only [ht.layout.kind] at hrun
    by_cases hks : h₀.kind s = .outData
    · have hsa : s ∈ own a := by rw [hl]; exact mem_cons_self
      have htaker := taker_of_peer hs hd hloop han (by rw [hka]; rfl) (ht.kept han hsa)
      obtain ⟨m, hm, htm, -⟩ := ht.unlink hloop han hsa (.inr ⟨rfl, rfl⟩)
      rw [hl, erase_cons_head] at htm
      have hconst' : Node.isConst h (h.owner s) = Node.isConst h₀ (h₀.owner s) := by rw [isConst_of_track ht, ht.layout.owner]
      have hout : ∀ o ∈ h₀.outAnchors n, o ≠ a := by
        rintro o ho rfl
        exact not_inData hs hn ho ha
      rw [if_pos hks] at hrun
      rw [unfed, if_pos hks]
      refine Succeeds.congr ((Succeeds.of_eq hm htm).andThen fun m' hm' => ?_) hrun
      rw [hconst']
      by_cases hconst : Node.isConst h₀ (h₀.owner s) = true
      · have hnone : dataTaker h₀ (s :: rest) = none := by simp [dataTaker, hconst]
        rw [if_pos hconst]
        refine .of_eq rfl (hm'.congr (fun u v => by simp [hnone, TakenOver]) fun x _ => ?_)
        by_cases hx : x = a
        · rw [if_pos hx, hx, update_self]
        · simp [hx, hnone, leftOver]
      · have hsome : dataTaker h₀ (s :: rest) = some s := by simp [dataTaker, hks, hconst]
        rw [if_neg hconst]
        refine (takes_takeOverData hs hd hloop hn htaker _ _ m' hm').mono fun h' ht' =>
          ht'.congr (fun u v => or_congr_right ?_) fun x _ => ?_
        · rw [hsome, TakenOver]
          simp only [Option.mem_some_iff, exists_eq_left']
          refine exists_congr fun o => and_congr_right fun ho => ?_
          rw [update_of_ne (hout o ho)]
        · by_cases hx : x = a
          · have hxout : a ∉ h₀.outAnchors n := fun hxo => hout a hxo rfl
            rw [if_pos hx, hx, if_neg hxout, update_self]
          · rw [if_neg hx, update_of_ne hx, hsome]
            simp [leftOver]
    · rw [if_neg hks] at hrun
      exact .of_eq hrun (hidle (by simp [dataTaker, hks]) (by rw [unfed, if_neg hks]))

/-- The loop over data inputs: the first taker takes over. -/
theorem isolateInData_rounds (ins : List AnchorId) (hins : ∀ a ∈ ins, a ∈ h₀.anchorsOf n .inData) (hnodup : ins.Nodup) :
    ∀ {A own h}, Track h₀ n A own h →
      Succeeds (SinglePeers h₀) (Cmd.eachOk (isolateInData n) ins) h
        (Track h₀ n (fun u v => A u v ∨
            TakenOver h₀ n (unlessDriven h₀) (ins.filterMap fun a => dataTaker h₀ (own a)).head? own u v)
          fun x => if x ∈ ins then unfed h₀ (own x) else if x ∈ h₀.outAnchors n then
            leftOver (unlessDriven h₀) (ins.filterMap fun a => dataTaker h₀ (own a)).head? own x else own x) := by
  induction ins with
  | nil => exact fun {A own h} ht => .of_eq rfl (ht.congr (fun u v => by simp [TakenOver]) fun x _ => by simp [leftOver])
  | cons a ins ih =>
    intro A own h ht
    obtain ⟨hnot, hnodup⟩ := nodup_cons.mp hnodup
    have hout : ∀ x ∈ a :: ins, x ∉ h₀.outAnchors n := fun x hx hxo => not_inData hs hn hxo (hins x hx)
    have hne : ∀ x ∈ ins, x ≠ a := by
      rintro x hx rfl
      exact hnot hx
    generalize hown : (fun x => if x = a then unfed h₀ (own a) else if x ∈ h₀.outAnchors n then
      leftOver (unlessDriven h₀) (dataTaker h₀ (own a)) own x else own x) = own'
    have hrest : ∀ x ∈ ins, own' x = own x := fun x hx => by
      rw [← hown]
      simp only [if_neg (hne x hx), if_neg (hout x (mem_cons_of_mem a hx))]
    have hleft : ∀ o ∈ h₀.outAnchors n, own' o = leftOver (unlessDriven h₀) (dataTaker h₀ (own a)) own o := fun o ho => by
      rw [← hown]
      simp only [if_neg fun hoa : o = a => hout a mem_cons_self (hoa ▸ ho), if_pos ho]
    have htakers : (ins.filterMap fun x => dataTaker h₀ (own' x)) = ins.filterMap fun x => dataTaker h₀ (own x) :=
      filterMap_congr fun x hx => by rw [hrest x hx]
    have hhead : ((a :: ins).filterMap fun x => dataTaker h₀ (own x)).head? =
        (dataTaker h₀ (own a)).or (ins.filterMap fun x => dataTaker h₀ (own x)).head? := by
      rw [filterMap_cons]
      cases dataTaker h₀ (own a) <;> rfl
    refine (isolateInData_round hs hd hloop hn (hins a mem_cons_self) ht).andThen fun m hm =>
      (ih (fun x hx => hins x (mem_cons_of_mem a hx)) hnodup (hown ▸ hm)).mono fun h' ht' =>
        ht'.congr (fun u v => ?_) fun x _ => ?_
    · rw [hhead, or_assoc, htakers, takenOver_two hleft]
    · rw [hhead, htakers]
      by_cases hx : x ∈ ins
      · rw [if_pos hx, if_pos (mem_cons_of_mem a hx), hrest x hx]
      · by_cases hxo : x ∈ h₀.outAnchors n
        · have hxa : x ∉ a :: ins := fun hmem => hout x hmem hxo
          rw [if_neg hx, if_pos hxo, if_neg hxa, if_pos hxo, leftOver_two (hleft x hxo)]
        · by_cases hxa : x = a
          · subst hxa
            rw [if_neg hx, if_neg hxo, if_pos mem_cons_self, ← hown]
            simp
          · rw [if_neg hx, if_neg hxo, if_neg (by simp [hxa, hx]), if_neg hxo, ← hown]
            simp [hxa, hxo]

/-! ## The control input -/

/-- The round over a control source. -/
theorem isolateInControl_round (ht : Track h₀ n A own h) (hc : s ∈ own (h₀.node n).inControlAnchor) :
    Succeeds (SinglePeers h₀) (isolateInControl n s) h
      (Track h₀ n (fun u v => A u v ∨ TakenOver h₀ n (toControl h₀) (some s) own u v)
        fun x => if x = (h₀.node n).inControlAnchor then (own x).erase s else if x ∈ h₀.outAnchors n then
          leftOver (toControl h₀) (some s) own x else own x) := by
  obtain ⟨howner, hkind, hnot⟩ := inControl_facts hs hn
  have hne : ∀ o ∈ h₀.outAnchors n, o ≠ (h₀.node n).inControlAnchor := by
    rintro o ho rfl
    exact hnot ho
  have htaker := taker_of_peer hs hd hloop howner (by rw [hkind]; rfl) (ht.kept howner hc)
  obtain ⟨m, hm, htm, -⟩ := ht.unlink hloop howner hc (.inr ⟨rfl, rfl⟩)
  have hrun : isolateInControl n s h = (do
      if !(← GraphUtils.removeEdge (some s) (some (h₀.node n).inControlAnchor)) then return false
      takeOverControl n s : Cmd Heap Bool) h := by
    rw [isolateInControl, get_bind_apply, ht.layout.node]
  refine Succeeds.congr ((Succeeds.of_eq hm htm).andThen fun m' hm' =>
    (takes_takeOverControl hs hloop hn htaker _ _ m' hm').mono fun h' ht' =>
      ht'.congr (fun u v => or_congr_right ?_) fun x _ => ?_) hrun
  · rw [TakenOver]
    simp only [Option.mem_some_iff, exists_eq_left']
    refine exists_congr fun o => and_congr_right fun ho => ?_
    rw [update_of_ne (hne o ho)]
  · by_cases hx : x = (h₀.node n).inControlAnchor
    · subst hx
      rw [if_neg hnot, if_pos rfl, update_self]
    · rw [if_neg hx, update_of_ne hx]
      rfl

/-- The loop over control sources: the first takes over. -/
theorem isolateInControl_rounds (rest : List AnchorId) : ∀ {A own h}, Track h₀ n A own h →
    (own (h₀.node n).inControlAnchor).filter (fun b => h₀.kind b = .outControl) = rest →
    Succeeds (SinglePeers h₀) (Cmd.eachOk (isolateInControl n) rest) h
      (Track h₀ n (fun u v => A u v ∨ TakenOver h₀ n (toControl h₀) rest.head? own u v)
        fun x => if x = (h₀.node n).inControlAnchor then (own x).filter (fun b => h₀.kind b ≠ .outControl)
          else if x ∈ h₀.outAnchors n then leftOver (toControl h₀) rest.head? own x else own x) := by
  induction rest with
  | nil =>
    intro A own h ht hrest
    refine .of_eq rfl (ht.congr (fun u v => by simp [TakenOver]) fun x _ => ?_)
    by_cases hx : x = (h₀.node n).inControlAnchor
    · rw [if_pos hx, hx, eq_comm, filter_eq_self]
      intro b hb
      simpa using filter_eq_nil_iff.mp hrest b hb
    · simp [hx, leftOver]
  | cons c rest ih =>
    intro A own h ht hrest
    have hc := mem_filter.mp (hrest ▸ mem_cons_self :
      c ∈ (own (h₀.node n).inControlAnchor).filter fun b => h₀.kind b = .outControl)
    obtain ⟨-, -, hnot⟩ := inControl_facts hs hn
    have hleft : ∀ o ∈ h₀.outAnchors n, (if o = (h₀.node n).inControlAnchor then (own o).erase c else
        if o ∈ h₀.outAnchors n then leftOver (toControl h₀) (some c) own o else own o) =
        leftOver (toControl h₀) (some c) own o := by
      intro o ho
      have hne : o ≠ (h₀.node n).inControlAnchor := by
        rintro rfl
        exact hnot ho
      rw [if_neg hne, if_pos ho]
    refine (isolateInControl_round hs hd hloop hn ht hc.1).andThen fun m hm => (ih hm ?_).mono fun h' ht' =>
      ht'.congr (fun u v => ?_) fun x _ => ?_
    · rw [if_pos rfl, ← erase_filter, hrest, erase_cons_head]
    · rw [or_assoc, takenOver_two hleft, Option.some_or, head?_cons]
    · by_cases hx : x = (h₀.node n).inControlAnchor
      · rw [if_pos hx, if_pos hx, if_pos hx, ← erase_filter, erase_of_not_mem]
        simp [of_decide_eq_true hc.2]
      · by_cases hxo : x ∈ h₀.outAnchors n
        · rw [if_neg hx, if_pos hxo, leftOver_two (hleft x hxo), if_neg hx, if_pos hxo, Option.some_or, head?_cons]
        · simp [hx, hxo]

/-- The loop over the data sources of the control input. -/
theorem takes_isolateOutPeerData {next : List NodeId} (hnext : ∀ v ∈ next, v < h₀.nodeCount ∧ v ≠ n) :
    Takes h₀ n (do let h ← get
                   Cmd.eachOk (isolateOutPeerData n next) (Anchor.getPeersOf h (h₀.node n).inControlAnchor .outData))
      [(h₀.node n).inControlAnchor] (fun _ b => h₀.kind b = .outData) (fun p u v => u = h₀.owner p ∧ v ∈ next) := by
  obtain ⟨howner, hkind, -⟩ := inControl_facts hs hn
  refine takes_class howner .outData fun A own h ht p hp _ => ?_
  have htaker := taker_of_peer hs hd hloop howner (by rw [hkind]; rfl) (ht.kept howner hp)
  obtain ⟨m, hm, htm, -⟩ := ht.unlink hloop howner hp (.inr ⟨rfl, rfl⟩)
  obtain ⟨h', hr, ht'⟩ := controlNodes_spec hs htaker hnext htm
  refine .of_eq ?_ ht'
  rw [isolateOutPeerData, get_bind_apply, ht.layout.node]
  exact (bind_of_eq hm).trans hr

/-! ## The isolation -/

theorem outNodes_away : ∀ v ∈ Node.getOutAllNodes h₀ n, v < h₀.nodeCount ∧ v ≠ n := by
  intro v hv
  obtain ⟨a, ha, b, hb, rfl⟩ := (ClosedAux.mem_getOutAllNodes hs hd hn).mp hv
  exact ⟨(hs.peersHeld a b hb).1, hloop a b ((Heap.mem_outAnchors hs.laid hn).mp ha).2.1 hb⟩

/-- The control input and the outputs of the node have their peers. -/
structure StillLinked (h₀ : Heap) (n : NodeId) (own : AnchorId → List AnchorId) : Prop where
  control : own (h₀.node n).inControlAnchor = h₀.peers (h₀.node n).inControlAnchor
  outputs : ∀ o ∈ h₀.outAnchors n, own o = h₀.peers o

/-- What the first loop leaves of the node's links. -/
structure DataStage (h₀ : Heap) (n : NodeId) (fed own : AnchorId → List AnchorId) : Prop where
  inputs : ∀ a ∈ (h₀.node n).inDataAnchors, own a = unfed h₀ (fed a)
  control : own (h₀.node n).inControlAnchor = h₀.peers (h₀.node n).inControlAnchor
  outputs : ∀ o ∈ h₀.outAnchors n, own o = leftOver (unlessDriven h₀) (firstTaker h₀ n fed) h₀.peers o

theorem data_stage (ht : Track h₀ n A own h) (hown : StillLinked h₀ n own) :
    Succeeds (SinglePeers h₀) (Cmd.eachOk (isolateInData n) (h.node n).inDataAnchors) h fun h' => ∃ own', DataStage h₀ n own own' ∧
      Track h₀ n (fun u v => A u v ∨ TakenOver h₀ n (unlessDriven h₀) (firstTaker h₀ n own) h₀.peers u v) own' h' := by
  rw [ht.layout.node]
  refine (isolateInData_rounds hs hd hloop hn (h₀.node n).inDataAnchors (fun _ ha => ha) (hs.laid.nodup hn .inData) ht).mono
    fun h' ht' => ⟨_, ⟨fun a ha => if_pos ha, ?_, fun o ho => ?_⟩, ht'.congr (fun u v => ?_) fun _ _ => rfl⟩
  · have hdata : (h₀.node n).inControlAnchor ∉ (h₀.node n).inDataAnchors := fun hmem =>
      not_inControl hs hn (k := .inData) (by decide) hmem rfl
    rw [if_neg hdata, if_neg (inControl_facts hs hn).2.2, hown.control]
  · rw [if_neg (not_inData hs hn ho), if_pos ho]
    unfold leftOver firstTaker
    rw [hown.outputs o ho]
  · rw [takenOver_congr hown.outputs]
    rfl

/-- What the second loop leaves of them. -/
structure ControlStage (h₀ : Heap) (n : NodeId) (own own' : AnchorId → List AnchorId) : Prop where
  inputs : ∀ a ∈ (h₀.node n).inDataAnchors, own' a = own a
  control : own' (h₀.node n).inControlAnchor = (h₀.peers (h₀.node n).inControlAnchor).filter fun b => h₀.kind b ≠ .outControl
  outputs : ∀ o ∈ h₀.outAnchors n, own' o = leftOver (toControl h₀)
    (InControlAnchor.getPeerOutControlAnchors h₀ (h₀.node n).inControlAnchor).head? own o

theorem control_stage (ht : Track h₀ n A own h) (hown : own (h₀.node n).inControlAnchor = h₀.peers (h₀.node n).inControlAnchor) :
    Succeeds (SinglePeers h₀)
      (Cmd.eachOk (isolateInControl n) (InControlAnchor.getPeerOutControlAnchors h (h.node n).inControlAnchor)) h fun h' =>
        ∃ own', ControlStage h₀ n own own' ∧ Track h₀ n (fun u v => A u v ∨ TakenOver h₀ n (toControl h₀)
          (InControlAnchor.getPeerOutControlAnchors h₀ (h₀.node n).inControlAnchor).head? own u v) own' h' := by
  obtain ⟨howner, -, hnot⟩ := inControl_facts hs hn
  have hsources : InControlAnchor.getPeerOutControlAnchors h (h.node n).inControlAnchor =
      InControlAnchor.getPeerOutControlAnchors h₀ (h₀.node n).inControlAnchor := by
    rw [ht.layout.node, InControlAnchor.getPeerOutControlAnchors, ht.getPeersOf howner, hown]
    rfl
  rw [hsources]
  refine (isolateInControl_rounds hs hd hloop hn _ ht (by rw [hown]; rfl)).mono fun h' ht' =>
    ⟨_, ⟨fun a ha => ?_, by rw [if_pos rfl, hown], fun o ho => ?_⟩, ht'⟩
  · have hout : a ∉ h₀.outAnchors n := fun hout => not_inData hs hn hout ha
    rw [if_neg (not_inControl hs hn (k := .inData) (by decide) ha), if_neg hout]
  · have hne : o ≠ (h₀.node n).inControlAnchor := by
      rintro rfl
      exact hnot ho
    rw [if_neg hne, if_pos ho]

omit hloop in
/-- What all loops leave of the node's links. -/
theorem mem_leftAt {fed own own' : AnchorId → List AnchorId} (hdata : DataStage h₀ n fed own)
    (hcontrol : ControlStage h₀ n own own')
    {a : AnchorId} (ha : h₀.owner a = n) (hheld : h₀.Held a) (b : AnchorId) :
    (b ∈ if a ∈ h₀.outAnchors n then
        (if a ∈ [(h₀.node n).inControlAnchor] then (own' a).filter (fun b => !decide (h₀.kind b = .outData)) else own' a).filter
          fun b => !unlessDriven h₀ a b
      else if a ∈ [(h₀.node n).inControlAnchor] then (own' a).filter (fun b => !decide (h₀.kind b = .outData)) else own' a) ↔
      b ∈ leftAt h₀ fed a := by
  have hmem : a ∈ h₀.anchorsOf n (h₀.kind a) := ha ▸ hheld.2
  have hnotOut : (h₀.kind a).isIn = true → a ∉ h₀.outAnchors n := fun hk hout => by
    rw [((Heap.mem_outAnchors hs.laid hn).mp hout).2.2] at hk
    cases hk
  have hlinks : b ∈ h₀.peers a → (h₀.kind b).isIn = !(h₀.kind a).isIn := hd a b
  have hsubset : a ∈ h₀.outAnchors n → own' a ⊆ h₀.peers a := fun hout => by
    rw [hcontrol.outputs a hout]
    exact List.Subset.trans (leftOver_subset ..) (hdata.outputs a hout ▸ leftOver_subset ..)
  unfold leftAt
  cases hk : h₀.kind a with
  | inData =>
    rw [hk] at hmem
    rw [if_neg (hnotOut (by rw [hk]; rfl)), if_neg (by simpa using not_inControl hs hn (by decide) hmem),
      hcontrol.inputs a hmem, hdata.inputs a hmem]
  | inControl =>
    rw [hk] at hmem hlinks
    obtain rfl := mem_singleton.mp hmem
    rw [if_neg (hnotOut (by rw [hk]; rfl)), if_pos (mem_singleton_self _), hcontrol.control, filter_filter,
      mem_filter]
    refine iff_of_false ?_ not_mem_nil
    rintro ⟨hb, hq⟩
    have hout := hlinks hb
    cases hkb : h₀.kind b with
    | outData | outControl => simp [hkb] at hq
    | inData | inControl => rw [hkb] at hout; cases hout
  | outData =>
    have hout : a ∈ h₀.outAnchors n := (Heap.mem_outAnchors hs.laid hn).mpr ⟨hheld, ha, by rw [hk]; rfl⟩
    rw [if_pos hout, mem_filter]
    exact iff_of_false (fun hb => by simp [unlessDriven, hk] at hb) not_mem_nil
  | outControl =>
    have hout : a ∈ h₀.outAnchors n := (Heap.mem_outAnchors hs.laid hn).mpr ⟨hheld, ha, by rw [hk]; rfl⟩
    have hne : a ∉ [(h₀.node n).inControlAnchor] := fun hmem' =>
      (inControl_facts hs hn).2.2 (mem_singleton.mp hmem' ▸ hout)
    rw [hk] at hlinks
    rw [if_pos hout, if_neg hne, mem_filter, mem_filter]
    constructor
    · rintro ⟨hb, hq⟩
      have hpeer := hsubset hout hb
      have hin := hlinks hpeer
      refine ⟨hpeer, ?_⟩
      cases hkb : h₀.kind b with
      | inData => rfl
      | inControl => simp [unlessDriven, hkb] at hq
      | outData | outControl => rw [hkb] at hin; cases hin
    · rintro ⟨hpeer, hkb⟩
      have hdriven : unlessDriven h₀ a b = false := by simp [unlessDriven, hk, of_decide_eq_true hkb]
      have hnocontrol : toControl h₀ a b = false := by simp [toControl, of_decide_eq_true hkb]
      refine ⟨hcontrol.outputs a hout ▸ mem_leftOver (hdata.outputs a hout ▸ mem_leftOver hpeer hdriven) hnocontrol, ?_⟩
      rw [hdriven]
      rfl

omit hd hloop in
/-- The nodes that come next are those that came next. -/
theorem getOutAllNodes_of_track (ht : Track h₀ n A own h) (hown : StillLinked h₀ n own) :
    Node.getOutAllNodes h n = Node.getOutAllNodes h₀ n := by
  have hpeers : ∀ o ∈ h₀.outAnchors n, h.peers o = h₀.peers o := fun o ho =>
    (ht.own o ((Heap.mem_outAnchors hs.laid hn).mp ho).2.1).trans (hown.outputs o ho)
  have howner : h.owner = h₀.owner := funext ht.layout.owner
  have hclass : ∀ o ∈ h₀.outAnchors n, ∀ k, Anchor.getPeersOf h o k = Anchor.getPeersOf h₀ o k := fun o ho k => by
    unfold Anchor.getPeersOf
    rw [hpeers o ho]
    exact filter_congr fun b _ => by rw [ht.layout.kind]
  have hdata : ∀ o ∈ (h₀.node n).outDataAnchors, o ∈ h₀.outAnchors n := fun o ho => mem_append_left _ ho
  have hcontrol : (h₀.node n).outControlAnchor ∈ h₀.outAnchors n := mem_append_right _ (mem_singleton_self _)
  unfold Node.getOutAllNodes OutDataAnchor.getPeerInDataAnchors OutDataAnchor.getPeerInControlAnchors
  rw [ht.layout.node, howner, hpeers _ hcontrol, flatMap_congr fun o ho => by
    rw [hclass o (hdata o ho), hclass o (hdata o ho)]]

/-- An isolation in a graph that succeeds, at a node that is not linked to itself, adds the edges of the nodes that take over; and
it does succeed where data inputs have at most one link. -/
theorem isolateNode_succeeds (ht : Track h₀ n A own h) (hown : StillLinked h₀ n own) :
    Succeeds (SinglePeers h₀) (isolateNode n) h fun h' => ∃ own', Track h₀ n (fun u v => A u v ∨ TakesOver h₀ n own u v) own' h' ∧
      ∀ a, h₀.owner a = n → ∀ b, b ∈ own' a ↔ b ∈ leftAt h₀ own a := by
  refine Succeeds.congr ((data_stage hs hd hloop hn ht hown).andThen fun h₁ hdone => ?_) (by rw [isolateNode, get_bind_apply])
  obtain ⟨own₁, hdata, ht₁⟩ := hdone
  refine Succeeds.congr ((control_stage hs hd hloop hn ht₁ hdata.control).andThen fun h₂ hdone => ?_) (get_bind_apply _ _)
  obtain ⟨own₂, hcontrol, ht₂⟩ := hdone
  have hnext := outNodes_away hs hd hloop hn
  rw [← getOutAllNodes_of_track hs hn ht hown] at hnext
  have hthird := takes_isolateOutPeerData hs hd hloop hn hnext _ _ h₂ ht₂
  refine Succeeds.congr (hthird.andThen fun h₃ ht₃ =>
    (takes_removeExtraOutEdge hs hd hloop hn _ _ h₃ ht₃).mono fun h₄ ht₄ =>
      ⟨_, ht₄.congr (fun u v => ?_) fun _ _ => rfl, fun a ha b => ?_⟩) ?_
  · rw [takenOver_control hdata.outputs, TakesOver, or_assoc, or_assoc, or_assoc]
    refine or_congr_right (or_congr_right (or_congr_right ?_))
    simp only [mem_singleton, exists_eq_left, hcontrol.control, and_false, exists_false, or_false, mem_filter,
      InControlAnchor.getPeerOutDataAnchors, Anchor.getPeersOf, decide_eq_true_eq, getOutAllNodes_of_track hs hn ht hown]
    refine exists_congr fun b => ?_
    constructor
    · rintro ⟨⟨hb, -⟩, hk, he⟩
      exact ⟨⟨hb, hk⟩, he⟩
    · rintro ⟨⟨hb, hk⟩, he⟩
      exact ⟨⟨hb, by rw [hk]; decide⟩, hk, he⟩
  · by_cases hheld : h₀.Held a
    · exact mem_leftAt hs hd hn hdata hcontrol ha hheld b
    · have hnone : h₀.peers a = [] := eq_nil_iff_forall_not_mem.mpr fun b hb => hheld (hs.symm.held hs.peersHeld hb)
      have hown₄ := ht₄.kept ha
      have hown := ht.kept ha
      rw [hnone, subset_nil] at hown₄ hown
      rw [hown₄]
      unfold leftAt
      split <;> simp [hnone, hown, unfed]
  · rw [get_bind_apply, ht₂.layout.node]
    rfl

end Rounds

end TakingAux

end Metadef
