import Metadef.Lemmas.ClosedIsolate
import Metadef.Theorems.SingleLink

/-!
# The edges an isolation in a graph leaves

The steps of `ComputeGraph::IsolateNode` are followed by the peers the anchors of the node have left and by the edges that are
added away from it. Where no anchor of the node is linked to another, and every data input has at most one link, each step goes
through.
-/

namespace Metadef

open List Function

open Cmd Heap LinkAux IsolateAux ComputeGraph SingleLinkAux

namespace TakingAux

/-- The node's anchors have the peers given left, and the edges away from the node are the old ones and those of a relation. -/
structure Track (h₀ : Heap) (n : NodeId) (A : NodeId → NodeId → Prop) (own : AnchorId → List AnchorId) (h : Heap) : Prop where
  pairs : ∃ R, Isolating h₀ n R h ∧ ∀ u v, (u, v) ∈ R ↔ A u v
  op : h.op = h₀.op
  single : SinglePeers h₀ → SinglePeers h
  own : ∀ a, h₀.owner a = n → h.peers a = own a

variable {h₀ h h' : Heap} {n : NodeId} {A : NodeId → NodeId → Prop} {own : AnchorId → List AnchorId}

theorem Track.sound (ht : Track h₀ n A own h) : h.Sound := by
  obtain ⟨R, hi, -⟩ := ht.pairs
  exact hi.sound

theorem Track.layout (ht : Track h₀ n A own h) : SameLayout h₀ h := by
  obtain ⟨R, hi, -⟩ := ht.pairs
  exact hi.layout

variable {a x : AnchorId} {f : AnchorId → Cmd Heap Bool}

/-- The peers left of the node's anchors are some they had. -/
theorem Track.kept (ht : Track h₀ n A own h) (ha : h₀.owner a = n) : own a ⊆ h₀.peers a := by
  obtain ⟨R, hi, -⟩ := ht.pairs
  exact ht.own a ha ▸ hi.kept a ha

theorem Track.away (ht : Track h₀ n A own h) {u v : NodeId} (hu : u ≠ n) (hv : v ≠ n) :
    h.AnyEdge u v ↔ h₀.AnyEdge u v ∨ A u v := by
  obtain ⟨R, hi, hR⟩ := ht.pairs
  rw [hi.away u v hu hv, hR]

/-- The peers of a class an anchor of the node has left. -/
theorem Track.getPeersOf (ht : Track h₀ n A own h) (ha : h₀.owner a = n) (k : AnchorKind) :
    Anchor.getPeersOf h a k = (own a).filter fun b => h₀.kind b = k := by
  rw [Anchor.getPeersOf, ht.own a ha]
  exact filter_congr fun b _ => by rw [ht.layout.kind]

theorem track_start (hs : h.Sound) (hd : h.Directed) (n : NodeId) : Track h n (fun _ _ => False) h.peers h :=
  ⟨⟨[], isolating_start hs hd n, fun u v => by simp⟩, rfl, id, fun _ _ => rfl⟩

/-- The relation and the peers count, not how they are written. -/
theorem Track.congr (ht : Track h₀ n A own h) {A' : NodeId → NodeId → Prop} {own' : AnchorId → List AnchorId}
    (hA : ∀ u v, A u v ↔ A' u v) (hown : ∀ a, h₀.owner a = n → own a = own' a) : Track h₀ n A' own' h := by
  obtain ⟨R, hi, hR⟩ := ht.pairs
  exact ⟨⟨R, hi, fun u v => (hR u v).trans (hA u v)⟩, ht.op, ht.single, fun a ha => (ht.own a ha).trans (hown a ha)⟩

/-! ## One link -/

/-- Taking a link off an anchor of the node, from either side. -/
theorem Track.unlink (ht : Track h₀ n A own h) (hloop : NoLoop h₀ n) {b : AnchorId} (ha : h₀.owner a = n) (hb : b ∈ own a)
    {y : AnchorId} (hxy : (x = a ∧ y = b) ∨ (x = b ∧ y = a)) :
    ∃ h', Anchor.unlink x (some y) h = some (true, h') ∧ Track h₀ n A (Function.update own a ((own a).erase b)) h' ∧
      ∀ z, h'.peers z = if z = a then (h.peers a).erase b else if z = b then (h.peers b).erase a else h.peers z := by
  have hmem : b ∈ h.peers a := ht.own a ha ▸ hb
  have hbn : h₀.owner b ≠ n := hloop a b ha (ht.kept ha hb)
  have hba : b ≠ a := fun e => hbn (e ▸ ha)
  have hyx : y ∈ h.peers x ∧ y ≠ x ∧ (h₀.owner x = n ∨ h₀.owner y = n) := by
    rcases hxy with ⟨rfl, rfl⟩ | ⟨rfl, rfl⟩
    · exact ⟨hmem, hba, .inl ha⟩
    · exact ⟨ht.sound.symm.mem hmem, hba.symm, .inr ha⟩
  obtain ⟨h', hr⟩ := unlink_returns ht.sound hyx.1 hyx.2.1
  obtain ⟨-, -, -, hpeers⟩ := unlink_true ht.sound hr
  have hpeers' : ∀ z, h'.peers z = if z = a then (h.peers a).erase b else if z = b then (h.peers b).erase a else h.peers z := by
    intro z
    rw [hpeers]
    rcases hxy with ⟨rfl, rfl⟩ | ⟨rfl, rfl⟩
    · by_cases hz : z = x
      · simp [hz, hba.symm]
      · simp [hz]
    · rfl
  have hop : h'.op = h.op := by
    rcases unlink_cases hr with ⟨hfalse, -⟩ | ⟨-, p, i, j, -, -, -, -, rfl⟩
    · cases hfalse
    · rfl
  obtain ⟨R, hi, hR⟩ := ht.pairs
  have hsingle : SinglePeers h → SinglePeers h' := fun hs => keeps_single_unlink x (some y) h true h' hs hr
  refine ⟨h', hr, ⟨⟨R, hi.unlink hr hyx.2.2, hR⟩, hop.trans ht.op, fun hs => hsingle (ht.single hs), fun z hz => ?_⟩, hpeers'⟩
  rw [hpeers', update_apply]
  by_cases hza : z = a
  · rw [if_pos hza, if_pos hza, ht.own a ha]
  · have hzb : z ≠ b := fun e => hbn (e ▸ hz)
    rw [if_neg hza, if_neg hzb, if_neg hza, ht.own z hz]

/-- An output of another node that may take links over. -/
structure Taker (h₀ : Heap) (n : NodeId) (s : AnchorId) : Prop where
  held : h₀.Held s
  out : (h₀.kind s).isIn = false
  away : h₀.owner s ≠ n

/-- Linking a taker to an input of another node that has room for a link adds their edge. -/
theorem Track.link (ht : Track h₀ n A own h) {s : AnchorId} (hs : Taker h₀ n s) (hheld : h₀.Held x)
    (hkx : (h₀.kind x).isIn = true) (hxn : h₀.owner x ≠ n) (hroom : h₀.kind x = .inData → h.peers x = []) :
    Track h₀ n (fun u v => A u v ∨ (u = h₀.owner s ∧ v = h₀.owner x)) own (Anchor.linked h s x) := by
  obtain ⟨R, hi, hR⟩ := ht.pairs
  have hsx : s ≠ x := by
    rintro rfl
    rw [hs.out] at hkx
    cases hkx
  have hlinked := hi.linked ((ht.layout.held x).mpr hheld) ((ht.layout.held s).mpr hs.held) hkx hs.out hxn hs.away (.inr rfl)
  have hsout : h.kind s ≠ .inData := fun hk => by
    have hout := hs.out
    rw [← ht.layout.kind, hk] at hout
    cases hout
  refine ⟨⟨_, hlinked, fun u v => ?_⟩, ht.op, fun hone => ?_, fun z hz => ?_⟩
  · rw [mem_cons, Prod.mk.injEq, hR]
    exact or_comm
  · exact single_linked (ht.single hone) (fun hk => absurd hk hsout) fun hk => hroom ((ht.layout.kind x).symm.trans hk)
  · have hzs : z ≠ s := fun e => hs.away (e ▸ hz)
    have hzx : z ≠ x := fun e => hxn (e ▸ hz)
    rw [linked_peers, Adjacency.push, update_of_ne hzx, Adjacency.push, update_of_ne hzs]
    exact ht.own z hz

/-! ## Links of a list of anchors -/

/-- A command that succeeds takes off anchors of the node the links a test picks, each of which adds edges; and it does succeed where
data inputs have at most one link. -/
def Takes (h₀ : Heap) (n : NodeId) (c : Cmd Heap Bool) (l : List AnchorId) (q : AnchorId → AnchorId → Bool)
    (e : AnchorId → NodeId → NodeId → Prop) : Prop :=
  ∀ A own h, Track h₀ n A own h → Succeeds (SinglePeers h₀) c h
    (Track h₀ n (fun u v => A u v ∨ ∃ o ∈ l, ∃ b ∈ own o, q o b = true ∧ e b u v)
      fun a => if a ∈ l then (own a).filter (fun b => !q a b) else own a)

variable {c d : Cmd Heap Bool} {l l' : List AnchorId} {q q' : AnchorId → AnchorId → Bool} {e : AnchorId → NodeId → NodeId → Prop}

/-- One command after another, on their anchors. -/
theorem Takes.append (hc : Takes h₀ n c l q e) (hd : Takes h₀ n d l' q e) :
    Takes h₀ n (do if !(← c) then return false
                   d) (l ++ l') q e := by
  intro A own h ht
  refine (hc A own h ht).andThen fun m hm => (hd _ _ m hm).mono fun h' ht' => ht'.congr (fun u v => ?_) fun a _ => ?_
  · rw [or_assoc]
    refine or_congr_right ⟨?_, ?_⟩
    · rintro (⟨o, ho, hb⟩ | ⟨o, ho, b, hb, hq, he⟩)
      · exact ⟨o, mem_append_left _ ho, hb⟩
      · refine ⟨o, mem_append_right _ ho, b, ?_, hq, he⟩
        split at hb
        · exact mem_of_mem_filter hb
        · exact hb
    · rintro ⟨o, ho, b, hb, hq, he⟩
      by_cases hol : o ∈ l
      · exact .inl ⟨o, hol, b, hb, hq, he⟩
      · exact .inr ⟨o, (mem_append.mp ho).resolve_left hol, b, by rwa [if_neg hol], hq, he⟩
  · by_cases hal : a ∈ l
    · by_cases hal' : a ∈ l'
      · simp [hal, hal']
      · simp [hal, hal']
    · simp [hal]

/-- One command after another, on the same anchors with different tests. -/
theorem Takes.both (hc : Takes h₀ n c l q e) (hd : Takes h₀ n d l q' e) :
    Takes h₀ n (do if !(← c) then return false
                   d) l (fun a b => q a b || q' a b) e := by
  intro A own h ht
  refine (hc A own h ht).andThen fun m hm => (hd _ _ m hm).mono fun h' ht' => ht'.congr (fun u v => ?_) fun a _ => ?_
  · rw [or_assoc]
    refine or_congr_right ⟨?_, ?_⟩
    · rintro (⟨o, ho, b, hb, hq, he⟩ | ⟨o, ho, b, hb, hq, he⟩)
      · exact ⟨o, ho, b, hb, by simp [hq], he⟩
      · rw [if_pos ho] at hb
        exact ⟨o, ho, b, mem_of_mem_filter hb, by simp [hq], he⟩
    · rintro ⟨o, ho, b, hb, hq, he⟩
      by_cases hqb : q o b = true
      · exact .inl ⟨o, ho, b, hb, hqb, he⟩
      · refine .inr ⟨o, ho, b, ?_, by simpa [hqb] using hq, he⟩
        rw [if_pos ho, mem_filter]
        exact ⟨hb, by simpa using hqb⟩
  · by_cases hal : a ∈ l
    · simp [hal, filter_filter, Bool.and_comm]
    · simp [hal]

/-- A loop over anchors. -/
theorem takes_each : ∀ {l : List AnchorId}, (∀ o ∈ l, Takes h₀ n (f o) [o] q e) → Takes h₀ n (Cmd.eachOk f l) l q e
  | [], _ => fun _ _ _ ht => .of_eq rfl (ht.congr (fun u v => by simp) fun a _ => by simp)
  | o :: _, hf => (hf o mem_cons_self).append (takes_each fun o' ho' => hf o' (mem_cons_of_mem o ho'))

/-- The test and the edges count at the peers the anchors had. -/
theorem Takes.congr (hc : Takes h₀ n c l q e) (hl : ∀ o ∈ l, h₀.owner o = n) (hq : ∀ o ∈ l, ∀ b ∈ h₀.peers o, q o b = q' o b) :
    Takes h₀ n c l q' e := by
  intro A own h ht
  refine (hc A own h ht).mono fun h' ht' => ht'.congr (fun u v => or_congr_right ?_) fun a _ => ?_
  · constructor
    · rintro ⟨o, ho, b, hb, hqb, he⟩
      exact ⟨o, ho, b, hb, hq o ho b (ht.kept (hl o ho) hb) ▸ hqb, he⟩
    · rintro ⟨o, ho, b, hb, hqb, he⟩
      exact ⟨o, ho, b, hb, (hq o ho b (ht.kept (hl o ho) hb)).symm ▸ hqb, he⟩
  · by_cases hal : a ∈ l
    · simp only [if_pos hal]
      exact filter_congr fun b hb => by rw [hq a hal b (ht.kept (hl a hal) hb)]
    · simp only [if_neg hal]

/-- A loop over the peers of a class of an anchor, which takes each off. -/
theorem takes_class {o : AnchorId} (ho : h₀.owner o = n) (k : AnchorKind)
    (hstep : ∀ A own h, Track h₀ n A own h → ∀ b ∈ own o, h₀.kind b = k → Succeeds (SinglePeers h₀) (f b) h
      (Track h₀ n (fun u v => A u v ∨ e b u v) (Function.update own o ((own o).erase b)))) :
    Takes h₀ n (do let h ← get
                   Cmd.eachOk f (Anchor.getPeersOf h o k)) [o] (fun _ b => h₀.kind b = k) e := by
  suffices hrun : ∀ rest A own h, Track h₀ n A own h → (own o).filter (fun b => h₀.kind b = k) = rest →
      Succeeds (SinglePeers h₀) (Cmd.eachOk f rest) h (Track h₀ n (fun u v => A u v ∨ ∃ b ∈ rest, e b u v)
        (Function.update own o ((own o).filter fun b => !decide (h₀.kind b = k)))) by
    intro A own h ht
    have hrun' := (hrun _ A own h ht rfl).mono (Q := Track h₀ n
      (fun u v => A u v ∨ ∃ o' ∈ [o], ∃ b ∈ own o', decide (h₀.kind b = k) = true ∧ e b u v)
      fun a => if a ∈ [o] then (own a).filter (fun b => !decide (h₀.kind b = k)) else own a) fun h' ht' =>
        ht'.congr (fun u v => by simp [and_assoc]) fun a _ => by
          by_cases hao : a = o
          · subst hao
            simp
          · simp [hao]
    exact hrun'.congr (by rw [get_bind_apply, ht.getPeersOf ho])
  intro rest
  induction rest with
  | nil =>
    intro A own h ht hrest
    refine .of_eq rfl (ht.congr (fun u v => by simp) fun a _ => ?_)
    have hall : (own o).filter (fun b => !decide (h₀.kind b = k)) = own o := by
      rw [filter_eq_self]
      intro b hb
      have hnot := filter_eq_nil_iff.mp hrest b hb
      simpa using hnot
    rw [hall, update_eq_self]
  | cons b rest ih =>
    intro A own h ht hrest
    have hb := mem_filter.mp (hrest ▸ mem_cons_self : b ∈ (own o).filter fun b => h₀.kind b = k)
    have hfilter : ((own o).erase b).filter (fun b => h₀.kind b = k) = rest := by
      rw [← erase_filter, hrest, erase_cons_head]
    have hother : ((own o).erase b).filter (fun b => !decide (h₀.kind b = k)) = (own o).filter fun b => !decide
      (h₀.kind b = k) := by
      rw [← erase_filter, erase_of_not_mem]
      simp [of_decide_eq_true hb.2]
    refine (hstep A own h ht b hb.1 (of_decide_eq_true hb.2)).andThen fun m hm =>
      (ih _ _ m hm (by rw [update_self, hfilter])).mono fun h' ht' => ht'.congr (fun u v => ?_) fun a _ => ?_
    · simp [or_assoc]
    · rw [update_self, hother, update_idem]

end TakingAux

end Metadef
