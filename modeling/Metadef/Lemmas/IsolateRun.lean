import Metadef.Lemmas.IsolateSteps

/-!
# What an isolation that succeeds has done

The edges away from the node are then the old ones, those of the inputs moved to new sources, and those between the in and
the out nodes the accessors list.
-/

namespace Metadef

open List Function

open Cmd Heap LinkAux

namespace IsolateAux

/-! ## The inputs that are moved -/

/-- The input an output is mapped to, with the source of its first link, when that is a data output. The links the inputs
have left are a parameter. -/
def mappedInput (h : Heap) (inDataAnchors : List AnchorId) (inIndex : Int) (left : AnchorId → List AnchorId) :
    Option (AnchorId × AnchorId) :=
  if inIndex < 0 then none
  else inDataAnchors[inIndex.toNat]?.bind fun a =>
    (left a).head?.bind fun s => if h.kind s = .outData then some (a, s) else none

/-- What one output contributes: the pairs of nodes that are linked, and the links the inputs have left then. -/
def relinkStep (h : Heap) (inDataAnchors : List AnchorId) (o : AnchorId) (inIndex : Int) (left : AnchorId → List AnchorId) :
    List (NodeId × NodeId) × (AnchorId → List AnchorId) :=
  match mappedInput h inDataAnchors inIndex left with
  | none => ([], left)
  | some (a, s) =>
    ((OutDataAnchor.getPeerInDataAnchors h o).map fun p => (h.owner s, h.owner p), Function.update left a (left a).tail)

/-- The pairs of nodes a map from outputs to inputs links. -/
def relinkPairs (h : Heap) (inDataAnchors : List AnchorId) : List AnchorId → List Int → (AnchorId → List AnchorId) →
    List (NodeId × NodeId)
  | [], _, _ => []
  | o :: l, ioMap, left =>
    let r := relinkStep h inDataAnchors o (ioMap.headD (-1)) left
    r.1 ++ relinkPairs h inDataAnchors l ioMap.tail r.2

variable {h₀ h h' : Heap} {n : NodeId} {R pairs : List (NodeId × NodeId)}

/-- What holds while outputs of the node are relinked: those to come have their links, and the inputs have what is left of
theirs. -/
structure Relinking (h₀ : Heap) (n : NodeId) (ins outs : List AnchorId) (left : AnchorId → List AnchorId)
    (R : List (NodeId × NodeId)) (h : Heap) : Prop where
  isolating : Isolating h₀ n R h
  outs : ∀ o ∈ outs, h.peers o = h₀.peers o
  ins : ∀ a ∈ ins, h.peers a = left a

variable {o : AnchorId} {ins outs : List AnchorId}

/-- Moving inputs of other nodes to an output of another node adds the edges between their nodes. -/
theorem moveInputs_spec {s : AnchorId} (ho : h₀.owner o = n) (hks : (h₀.kind s).isIn = false) (hsn : h₀.owner s ≠ n)
    (hheld : h₀.Held s) {S : AnchorId → Prop} (hS : ∀ a, S a → h₀.owner a = n ∧ a ≠ o) (q : AnchorId → List AnchorId)
    {ps : List AnchorId} (hps : ∀ p ∈ ps, h₀.Held p ∧ (h₀.kind p).isIn = true ∧ h₀.owner p ≠ n) :
    ∀ {h R pairs}, Isolating h₀ n R h → (∀ a, S a → h.peers a = q a) →
      GraphUtils.moveInputs s o ps h = some (some pairs, h') →
      (pairs = ps.map fun p => (h₀.owner s, h₀.owner p)) ∧ Isolating h₀ n (pairs ++ R) h' ∧ ∀ a, S a → h'.peers a = q a := by
  induction ps with
  | nil =>
    intro h R pairs hi hq hr
    obtain ⟨rfl, rfl⟩ : [] = pairs ∧ h = h' := by simpa [GraphUtils.moveInputs] using hr
    exact ⟨rfl, hi, hq⟩
  | cons p ps ih =>
    intro h R pairs hi hq hr
    obtain ⟨hheldp, hkp, hpn⟩ := hps p mem_cons_self
    unfold GraphUtils.moveInputs at hr
    obtain ⟨ok, h₁, hunlink, hr⟩ := bind_eq_some.mp hr
    cases ok with
    | false => simp at hr
    | true =>
      simp only [Bool.not_true, Bool.false_eq_true, if_false] at hr
      obtain ⟨ok', h₂, hlink, hr⟩ := bind_eq_some.mp hr
      cases ok' with
      | false => simp at hr
      | true =>
        simp only [Bool.not_true, Bool.false_eq_true, if_false, get_bind_apply] at hr
        obtain ⟨rest, h₃, hmove, hrest⟩ := bind_eq_some.mp hr
        cases rest with
        | none => simp at hrest
        | some rest =>
          have hrest' : (h₂.owner s, h₂.owner p) :: rest = pairs ∧ h₃ = h' := by simpa using hrest
          obtain ⟨rfl, rfl⟩ := hrest'
          have hi₁ := hi.unlink hunlink (.inr ho)
          obtain ⟨-, -, -, hpeers₁⟩ := unlink_true hi.sound hunlink
          rcases link_cases hlink with ⟨hfalse, -⟩ | ⟨-, s', hs', -, heq⟩
          · cases hfalse
          · obtain rfl : s = s' := Option.some.inj hs'
            have hi₂ := hi₁.linked ((hi₁.layout.held p).mpr hheldp) ((hi₁.layout.held s).mpr hheld) hkp hks hpn hsn (.inl heq)
            have hq₂ : ∀ a, S a → h₂.peers a = q a := by
              intro a ha
              obtain ⟨han, hao⟩ := hS a ha
              have hap : a ≠ p := fun e => hpn (e ▸ han)
              have has : a ≠ s := fun e => hsn (e ▸ han)
              rw [heq, linked_peers, Adjacency.push, update_of_ne has, Adjacency.push, update_of_ne hap,
                hpeers₁, if_neg hao, if_neg hap]
              exact hq a ha
            obtain ⟨hpairs, hi₃, hq₃⟩ := ih (fun p hp => hps p (mem_cons_of_mem _ hp)) hi₂ hq₂ hmove
            have howner : h₂.owner s = h₀.owner s ∧ h₂.owner p = h₀.owner p := ⟨hi₂.layout.owner s, hi₂.layout.owner p⟩
            refine ⟨?_, hi₃.of_mem_iff fun e => ?_, hq₃⟩
            · rw [howner.1, howner.2, map_cons, hpairs]
            · rw [howner.1, howner.2]
              simp only [cons_append, mem_cons, mem_append]
              exact or_left_comm

/-- The source of the first link of an input, when that is a data output. -/
theorem getPeerOutAnchor_eq (a : AnchorId) :
    InDataAnchor.getPeerOutAnchor h a = (h.peers a).head?.bind fun s => if h.kind s = .outData then some s else none := by
  unfold InDataAnchor.getPeerOutAnchor
  cases h.peers a <;> rfl

/-- The anchors of a node that is relinked: its inputs are data inputs, its outputs data outputs. -/
structure OwnAnchors (h₀ : Heap) (n : NodeId) (ins outs : List AnchorId) : Prop where
  inData : ∀ a ∈ ins, h₀.owner a = n ∧ h₀.kind a = .inData
  outData : ∀ o ∈ outs, h₀.owner o = n ∧ h₀.kind o = .outData
  nodup : outs.Nodup

theorem OwnAnchors.ne (hown : OwnAnchors h₀ n ins outs) {a : AnchorId} (ha : a ∈ ins) (ho : o ∈ outs) : a ≠ o := by
  rintro rfl
  have hk := (hown.inData a ha).2.symm.trans (hown.outData a ho).2
  cases hk

/-- Relinking one output. -/
theorem relinkOutput_spec (hs : h₀.Sound) (hloop : NoLoop h₀ n)
    (hown : OwnAnchors h₀ n ins (o :: outs)) {left : AnchorId → List AnchorId} {inIndex : Int}
    (hre : Relinking h₀ n ins (o :: outs) left R h) (hr : GraphUtils.relinkOutput ins o inIndex h = some (some pairs, h')) :
    pairs = (relinkStep h₀ ins o inIndex left).1 ∧
      Relinking h₀ n ins outs (relinkStep h₀ ins o inIndex left).2 (pairs ++ R) h' := by
  obtain ⟨ho, hko⟩ := hown.outData o mem_cons_self
  have hS : ∀ a, (a ∈ outs ∨ a ∈ ins) → h₀.owner a = n ∧ a ≠ o := by
    rintro a (ha | ha)
    · refine ⟨(hown.outData a (mem_cons_of_mem o ha)).1, ?_⟩
      rintro rfl
      exact (nodup_cons.mp hown.nodup).1 ha
    · exact ⟨(hown.inData a ha).1, hown.ne ha mem_cons_self⟩
  have hkeep : ∀ {left' : AnchorId → List AnchorId} {R' h'}, Isolating h₀ n R' h' →
      (∀ a ∈ outs, h'.peers a = h.peers a) → (∀ a ∈ ins, h'.peers a = left' a) → Relinking h₀ n ins outs left' R' h' :=
    fun hi hout hin => ⟨hi, fun a ha => (hout a ha).trans (hre.outs a (mem_cons_of_mem o ha)), hin⟩
  unfold GraphUtils.relinkOutput at hr
  unfold relinkStep mappedInput
  by_cases hneg : inIndex < 0
  · rw [if_pos hneg] at hr ⊢
    obtain ⟨u, h₁, hunlink, hr⟩ := bind_eq_some.mp hr
    obtain ⟨rfl, rfl⟩ : [] = pairs ∧ h₁ = h' := by simpa using hr
    obtain ⟨hi, -, hsame⟩ := hre.isolating.unlinkAll (S := fun a => a ∈ outs ∨ a ∈ ins) hloop ho hS hunlink
    exact ⟨rfl, hkeep hi (fun a ha => hsame a (.inl ha)) fun a ha => (hsame a (.inr ha)).trans (hre.ins a ha)⟩
  · rw [if_neg hneg] at hr ⊢
    cases ha : ins[inIndex.toNat]? with
    | none => simp [ha] at hr
    | some a =>
      have hains : a ∈ ins := mem_of_getElem? ha
      obtain ⟨han, hka⟩ := hown.inData a hains
      simp only [ha, get_bind_apply] at hr
      have hpeer := getPeerOutAnchor_eq (h := h) a
      rw [hre.ins a hains] at hpeer
      simp only [hre.isolating.layout.kind] at hpeer
      rw [Option.bind_some]
      cases hs' : InDataAnchor.getPeerOutAnchor h a with
      | none =>
        have hnone : ((left a).head?.bind fun s => if h₀.kind s = .outData then some (a, s) else none) = none := by
          rw [hs'] at hpeer
          cases hhead : (left a).head? with
          | none => rfl
          | some s =>
            simp only [hhead, Option.bind_some] at hpeer ⊢
            split at hpeer
            · cases hpeer
            · rename_i hk
              exact if_neg hk
        simp only [hs'] at hr
        obtain ⟨rfl, rfl⟩ : [] = pairs ∧ h = h' := by simpa using hr
        rw [hnone]
        exact ⟨rfl, hkeep hre.isolating (fun _ _ => rfl) hre.ins⟩
      | some s =>
        obtain ⟨l, hl, hks⟩ : ∃ l, left a = s :: l ∧ h₀.kind s = .outData := by
          rw [hs'] at hpeer
          cases hcase : left a with
          | nil => simp [hcase] at hpeer
          | cons b l =>
            simp only [hcase, head?_cons, Option.bind_some] at hpeer
            split at hpeer
            · rename_i hk
              obtain rfl : s = b := Option.some.inj hpeer
              exact ⟨l, rfl, hk⟩
            · cases hpeer
        have hmem₀ : s ∈ h₀.peers a := hre.isolating.kept a han (by rw [hre.ins a hains, hl]; exact mem_cons_self)
        have hsn : h₀.owner s ≠ n := hloop a s han hmem₀
        have hsout : (h₀.kind s).isIn = false := by rw [hks]; rfl
        simp only [hs'] at hr
        obtain ⟨ok, h₁, hunlink, hr⟩ := bind_eq_some.mp hr
        cases ok with
        | false => simp at hr
        | true =>
          simp only [Bool.not_true, Bool.false_eq_true, if_false, GraphUtils.replaceOutDataAnchor, get_bind_apply] at hr
          have hi₁ := hre.isolating.unlink hunlink (.inr han)
          obtain ⟨-, -, -, hpeers₁⟩ := unlink_true hre.isolating.sound hunlink
          have hsame₁ : ∀ b, h₀.owner b = n → b ≠ a → h₁.peers b = h.peers b := by
            intro b hb hba
            have hbs : b ≠ s := fun e => hsn (e ▸ hb)
            rw [hpeers₁, if_neg hba, if_neg hbs]
          have ha₁ : h₁.peers a = l := by
            rw [hpeers₁, if_pos rfl, hre.ins a hains, hl, erase_cons_head]
          have hoa : o ≠ a := (hown.ne hains mem_cons_self).symm
          have hps : OutDataAnchor.getPeerInDataAnchors h₁ o = OutDataAnchor.getPeerInDataAnchors h₀ o := by
            unfold OutDataAnchor.getPeerInDataAnchors Anchor.getPeersOf
            rw [hsame₁ o ho hoa, hre.outs o mem_cons_self]
            exact filter_congr fun b _ => by rw [hi₁.layout.kind]
          rw [hps] at hr
          have hpsown : ∀ p ∈ OutDataAnchor.getPeerInDataAnchors h₀ o,
              h₀.Held p ∧ (h₀.kind p).isIn = true ∧ h₀.owner p ≠ n := by
            intro p hp
            obtain ⟨hp, hkp⟩ := mem_filter.mp hp
            exact ⟨hs.peersHeld o p hp, by rw [of_decide_eq_true hkp]; rfl, hloop o p ho hp⟩
          obtain ⟨hpairs, hi, hq⟩ := moveInputs_spec ho hsout hsn (hs.peersHeld a s hmem₀) hS h₁.peers hpsown hi₁
            (fun _ _ => rfl) hr
          have hsome : ((left a).head?.bind fun s => if h₀.kind s = .outData then some (a, s) else none) = some (a, s) := by
            rw [hl, head?_cons, Option.bind_some, if_pos hks]
          rw [hsome]
          refine ⟨hpairs, hkeep hi (fun b hb => ?_) fun b hb => ?_⟩
          · have hbn := hS b (.inl hb)
            exact (hq b (.inl hb)).trans (hsame₁ b hbn.1 (hown.ne hains (mem_cons_of_mem o hb)).symm)
          · change h'.peers b = Function.update left a (left a).tail b
            rw [hq b (.inr hb), update_apply]
            by_cases hba : b = a
            · rw [if_pos hba, hba, ha₁, hl]
              rfl
            · rw [if_neg hba, hsame₁ b (hown.inData b hb).1 hba]
              exact hre.ins b hb

/-- Relinking all outputs. -/
theorem relinkOutputs_spec (hs : h₀.Sound) (hloop : NoLoop h₀ n) (outs : List AnchorId) :
    ∀ {ioMap : List Int} {left : AnchorId → List AnchorId} {R pairs h}, OwnAnchors h₀ n ins outs →
      Relinking h₀ n ins outs left R h → GraphUtils.relinkOutputs ins outs ioMap h = some (some pairs, h') →
      pairs = relinkPairs h₀ ins outs ioMap left ∧ Isolating h₀ n (pairs ++ R) h' := by
  induction outs with
  | nil =>
    intro ioMap left R pairs h _ hre hr
    obtain ⟨rfl, rfl⟩ : [] = pairs ∧ h = h' := by simpa [GraphUtils.relinkOutputs] using hr
    exact ⟨rfl, hre.isolating⟩
  | cons o outs ih =>
    intro ioMap left R pairs h hown hre hr
    unfold GraphUtils.relinkOutputs at hr
    obtain ⟨first, h₁, hfirst, hr⟩ := bind_eq_some.mp hr
    cases first with
    | none => simp at hr
    | some first =>
      obtain ⟨rest, h₂, hrest, hr⟩ := bind_eq_some.mp hr
      cases rest with
      | none => simp at hr
      | some rest =>
        obtain ⟨rfl, rfl⟩ : first ++ rest = pairs ∧ h₂ = h' := by simpa using hr
        obtain ⟨hstep, hre₁⟩ := relinkOutput_spec hs hloop hown hre hfirst
        have hown₁ : OwnAnchors h₀ n ins outs :=
          ⟨hown.inData, fun a ha => hown.outData a (mem_cons_of_mem o ha), (nodup_cons.mp hown.nodup).2⟩
        obtain ⟨htail, hi⟩ := ih hown₁ hre₁ hrest
        refine ⟨?_, hi.of_mem_iff fun p => ?_⟩
        · unfold relinkPairs
          rw [htail]
          exact congrArg (· ++ _) hstep
        · simp only [mem_append]
          rw [or_left_comm, or_assoc]

/-! ## The whole of an isolation -/

/-- The pairs of nodes the data links are moved between. -/
def movedPairs (h : Heap) (n : NodeId) (ioMap : List Int) : List (NodeId × NodeId) :=
  relinkPairs h (h.node n).inDataAnchors (h.node n).outDataAnchors ioMap h.peers

theorem relinkDataIO_spec (hs : h.Sound) (hd : h.Directed) (hn : n < h.nodeCount) (hloop : NoLoop h n) {ioMap : List Int}
    (hr : GraphUtils.relinkDataIO n ioMap h = some (some pairs, h')) :
    pairs = movedPairs h n ioMap ∧ Isolating h n pairs h' := by
  have hown : OwnAnchors h n (h.node n).inDataAnchors (h.node n).outDataAnchors :=
    ⟨fun a ha => ⟨hs.laid.owner n hn .inData a ha, hs.laid.kind n hn .inData a ha⟩,
      fun a ha => ⟨hs.laid.owner n hn .outData a ha, hs.laid.kind n hn .outData a ha⟩, hs.laid.nodup hn .outData⟩
  unfold GraphUtils.relinkDataIO at hr
  rw [get_bind_apply] at hr
  split at hr
  · simp at hr
  · obtain ⟨r, h₁, hrelink, hr⟩ := bind_eq_some.mp hr
    cases r with
    | none => simp at hr
    | some r =>
      obtain ⟨u, h₂, heach, hr⟩ := bind_eq_some.mp hr
      obtain ⟨rfl, rfl⟩ : r = pairs ∧ h₂ = h' := by simpa using hr
      have hstart : Relinking h n (h.node n).inDataAnchors (h.node n).outDataAnchors h.peers [] h :=
        ⟨isolating_start hs hd n, fun _ _ => rfl, fun _ _ => rfl⟩
      obtain ⟨hpairs, hi⟩ := relinkOutputs_spec hs hloop _ hown hstart hrelink
      rw [append_nil] at hi
      exact ⟨hpairs, (hi.unlinkEach hloop (fun a ha => (hown.inData a ha).1) heach).1⟩

/-- Two nodes are joined when there is an edge or a pair of them. -/
def Joined (h₀ : Heap) (R : List (NodeId × NodeId)) (a b : NodeId) : Prop := h₀.AnyEdge a b ∨ (a, b) ∈ R

/-- Relinking one in node and one out node by a control link joins them. -/
theorem relinkControl_spec {connected : List (NodeId × NodeId)} (hconnected : connected ⊆ R) {a b : NodeId}
    (ha : a ≠ n) (hb : b ≠ n) (hab : a ≠ b) (han : a < h₀.nodeCount) (hbn : b < h₀.nodeCount) (hi : Isolating h₀ n R h)
    (hr : GraphUtils.relinkControl connected a b h = some (true, h')) :
    ∃ R', Isolating h₀ n R' h' ∧ R ⊆ R' ∧ (∀ p ∈ R', p ∈ R ∨ p = (a, b)) ∧ Joined h₀ R' a b := by
  have hl := hi.sound.laid
  have han' : a < h.nodeCount := hi.layout.nodeCount ▸ han
  have hbn' : b < h.nodeCount := hi.layout.nodeCount ▸ hbn
  have hout : (h.node a).outControlAnchor ∈ h.anchorsOf a .outControl := mem_cons_self
  have hin : (h.node b).inControlAnchor ∈ h.anchorsOf b .inControl := mem_cons_self
  have hko : h.kind (h.node a).outControlAnchor = .outControl := hl.kind a han' _ _ hout
  have hki : h.kind (h.node b).inControlAnchor = .inControl := hl.kind b hbn' _ _ hin
  have hoo : h.owner (h.node a).outControlAnchor = a := hl.owner a han' _ _ hout
  have hoi : h.owner (h.node b).inControlAnchor = b := hl.owner b hbn' _ _ hin
  unfold GraphUtils.relinkControl at hr
  by_cases hc : (a, b) ∈ connected
  · rw [if_pos hc] at hr
    obtain rfl : h = h' := by simpa using hr
    exact ⟨R, hi, List.Subset.refl R, fun _ => .inl, .inr (hconnected hc)⟩
  · rw [if_neg hc, get_bind_apply] at hr
    by_cases hlinked : Anchor.isLinkedWith h (h.node a).outControlAnchor (some (h.node b).inControlAnchor) = true
    · rw [if_pos hlinked] at hr
      obtain rfl : h = h' := by simpa using hr
      obtain ⟨p, hp, heq⟩ := any_eq_true.mp hlinked
      have hpin : p = (h.node b).inControlAnchor :=
        (hl.eq_of_equal (hl.held hbn' hin) (hi.sound.peersHeld _ p hp) heq).symm
      have hedge : h.AnyEdge a b := ⟨_, p, hp, by rw [hko]; rfl, hoo, by rw [hpin, hoi], rfl⟩
      exact ⟨R, hi, List.Subset.refl R, fun _ => .inl, (hi.away a b ha hb).mp hedge⟩
    · rw [if_neg hlinked, if_neg hab] at hr
      have hlinking : Anchor.link (h.node a).outControlAnchor (some (h.node b).inControlAnchor) (fun _ _ => true) h =
        some (true, h') := hr
      rcases link_cases hlinking with ⟨hfalse, -⟩ | ⟨-, o, ho, -, heq⟩
      · cases hfalse
      · obtain rfl : (h.node b).inControlAnchor = o := Option.some.inj ho
        have hlink := hi.linked (hl.held hbn' hin) (hl.held han' hout) (by rw [← hi.layout.kind, hki]; rfl)
          (by rw [← hi.layout.kind, hko]; rfl) (by rw [← hi.layout.owner, hoi]; exact hb)
          (by rw [← hi.layout.owner, hoo]; exact ha) (.inr heq)
        rw [← hi.layout.owner, ← hi.layout.owner, hoo, hoi] at hlink
        refine ⟨_, hlink, subset_cons_self _ R, fun p hp => ?_, .inr mem_cons_self⟩
        rcases mem_cons.mp hp with rfl | hp
        · exact .inr rfl
        · exact .inl hp

/-- The pairs a row of control links has added so far, with the nodes it has joined to an in node. -/
def RowDone (h₀ : Heap) (n : NodeId) (R R₁ : List (NodeId × NodeId)) (A B : List NodeId) (a : NodeId) (seen : List NodeId)
    (h : Heap) : Prop :=
  ∃ R', Isolating h₀ n R' h ∧ R₁ ⊆ R' ∧ (∀ p ∈ R', p ∈ R ∨ (p.1 ∈ A ∧ p.2 ∈ B)) ∧ ∀ b ∈ seen, Joined h₀ R' a b

/-- The pairs all rows have added so far, with the in nodes that are joined to every out node. -/
def RowsDone (h₀ : Heap) (n : NodeId) (R : List (NodeId × NodeId)) (A B seen : List NodeId) (h : Heap) : Prop :=
  ∃ R', Isolating h₀ n R' h ∧ R ⊆ R' ∧ (∀ p ∈ R', p ∈ R ∨ (p.1 ∈ A ∧ p.2 ∈ B)) ∧ ∀ a ∈ seen, ∀ b ∈ B, Joined h₀ R' a b

/-- The control links join every in node to every out node. -/
theorem relinkControlNodeIfNeed_spec {A B : List NodeId} (hA : ∀ a ∈ A, a ≠ n ∧ a < h₀.nodeCount)
    (hB : ∀ b ∈ B, b ≠ n ∧ b < h₀.nodeCount) (hAB : ∀ a ∈ A, ∀ b ∈ B, a ≠ b) {inNodes : List NodeId}
    {outNodes : NodeId → List NodeId} (hin : ∀ a, a ∈ inNodes ↔ a ∈ A) (hout : ∀ a b, b ∈ outNodes a ↔ b ∈ B)
    (hi : Isolating h₀ n R h)
    (hr : GraphUtils.relinkControlNodeIfNeed inNodes outNodes R h = some (true, h')) :
    RowsDone h₀ n R A B A h' := by
  have hrows : RowsDone h₀ n R A B ([] ++ inNodes) h' := by
    refine eachOk_of_true (I := RowsDone h₀ n R A B) ?_ ⟨R, hi, List.Subset.refl R, fun _ => .inl, nofun⟩ hr
    rintro seen a h h₁ ha ⟨R₁, hi₁, hsub₁, hnew₁, hjoined₁⟩ hrow
    have haA : a ∈ A := (hin a).mp ha
    have hone : RowDone h₀ n R R₁ A B a ([] ++ outNodes a) h₁ := by
      refine eachOk_of_true (I := RowDone h₀ n R R₁ A B a) ?_ ⟨R₁, hi₁, List.Subset.refl R₁, hnew₁, nofun⟩ hrow
      rintro seen b h h₂ hb ⟨R₂, hi₂, hsub₂, hnew₂, hjoined₂⟩ hstep
      have hbB : b ∈ B := (hout a b).mp hb
      obtain ⟨R₃, hi₃, hsub₃, hnew₃, hjoined₃⟩ := relinkControl_spec (fun p hp => hsub₂ (hsub₁ hp)) (hA a haA).1 (hB b hbB).1
        (hAB a haA b hbB) (hA a haA).2 (hB b hbB).2 hi₂ hstep
      refine ⟨R₃, hi₃, fun p hp => hsub₃ (hsub₂ hp), fun p hp => ?_, fun c hc => ?_⟩
      · rcases hnew₃ p hp with hp | rfl
        · exact hnew₂ p hp
        · exact .inr ⟨haA, hbB⟩
      · rcases mem_append.mp hc with hc | hc
        · exact (hjoined₂ c hc).imp_right fun hp => hsub₃ hp
        · obtain rfl : c = b := mem_singleton.mp hc
          exact hjoined₃
    obtain ⟨R₂, hi₂, hsub₂, hnew₂, hjoined₂⟩ := hone
    refine ⟨R₂, hi₂, fun p hp => hsub₂ (hsub₁ hp), hnew₂, fun c hc b hb => ?_⟩
    rcases mem_append.mp hc with hc | hc
    · exact (hjoined₁ c hc b hb).imp_right fun hp => hsub₂ hp
    · obtain rfl : c = a := mem_singleton.mp hc
      exact hjoined₂ b ((hout c b).mpr hb)
  obtain ⟨R', hi', hsub, hnew, hjoined⟩ := hrows
  exact ⟨R', hi', hsub, hnew, fun a ha => hjoined a ((hin a).mpr ha)⟩

end IsolateAux

end Metadef
