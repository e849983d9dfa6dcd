import Metadef.Lemmas.TakenOver
import Metadef.Theorems.LinkSymmetry

/-!
# Replacing a node

`ReplaceNodeAnchors` moves the data links of an old node to a new one by two maps, and links the control anchors of the new node as
those of the old one. It leaves links from data outputs to control inputs with the old outputs.
-/

namespace Metadef

open List MovedPeersAux

open GraphUtils

namespace Heap

variable (h : Heap) (newNode oldNode : NodeId)

/-- The inputs of a new node paired with those of an old one. -/
def inPairs (inputsMap : List Int) : List (AnchorId × AnchorId) :=
  mappedPairs (h.node newNode).inDataAnchors (h.node oldNode).inDataAnchors inputsMap

/-- The outputs of a new node paired with those of an old one. -/
def outPairs (outputsMap : List Int) : List (AnchorId × AnchorId) :=
  mappedPairs (h.node newNode).outDataAnchors (h.node oldNode).outDataAnchors outputsMap

/-- A node without links between data anchors. -/
structure NoDataEdges (n : NodeId) : Prop where
  inputs : ∀ x ∈ (h.node n).inDataAnchors, ∀ s ∈ h.peers x, h.kind s ≠ .outData
  outputs : ∀ o ∈ (h.node n).outDataAnchors, ∀ p ∈ h.peers o, h.kind p ≠ .inData

/-- A link that is new at an input: a control link of the old node with the new one in its place, at one end or both. -/
def ControlTaken (x p : AnchorId) : Prop :=
  x = (h.node newNode).inControlAnchor ∧ p ∈ h.peers (h.node oldNode).inControlAnchor ∨
    p = (h.node newNode).outControlAnchor ∧ (x ∈ h.peers (h.node oldNode).outControlAnchor ∨
      x = (h.node newNode).inControlAnchor ∧ (h.node oldNode).inControlAnchor ∈ h.peers (h.node oldNode).outControlAnchor)

/-- The mapped links are moved with the order of readers kept, the new node has the control links of the old one, none twice, and
nothing else changed. -/
structure AnchorsReplaced (h' : Heap) (inputsMap outputsMap : List Int) : Prop where
  inputs : ∀ x, (h.kind x).isIn = true → ∃ extra : List AnchorId,
    (h'.peers x).Perm (h.takenOver (h.inPairs newNode oldNode inputsMap) (h.outPairs newNode oldNode outputsMap) x ++ extra) ∧
      extra.Nodup ∧ ∀ p ∈ extra,
        p ∉ h.takenOver (h.inPairs newNode oldNode inputsMap) (h.outPairs newNode oldNode outputsMap) x ∧
          h.ControlTaken newNode oldNode x p
  readers : ∀ e ∈ h.outPairs newNode oldNode outputsMap, (h'.peers e.1).filter (fun p => h.kind p = .inData) =
    ((h.peers e.2).filter fun p => h.kind p = .inData).map (renameBy (h.inPairs newNode oldNode inputsMap))
  controlled : ∀ p ∈ h.peers (h.node oldNode).inControlAnchor, p ∈ h'.peers (h.node newNode).inControlAnchor
  controls : ∀ q ∈ h.peers (h.node oldNode).outControlAnchor, q ∈ h'.peers (h.node newNode).outControlAnchor

/-- Replacing the anchors of a node succeeds, and moves the mapped links and nothing else. -/
def ReplacesAnchors (inputsMap outputsMap : List Int) : Prop :=
  ∃ h', replaceNodeAnchors (some newNode) (some oldNode) inputsMap outputsMap h = some (true, h') ∧
    h.AnchorsReplaced newNode oldNode h' inputsMap outputsMap

/-- The maps are no longer than the lists of new anchors, the data links can be taken over, mapped inputs come last among the readers
of a mapped output and in the order of the map, and control links that the new node has not are not repeated. -/
structure Replaceable (inputsMap outputsMap : List Int) : Prop where
  inputsLength : inputsMap.length ≤ (h.node newNode).inDataAnchors.length
  outputsLength : outputsMap.length ≤ (h.node newNode).outDataAnchors.length
  takesOver : TakesOver h (h.inPairs newNode oldNode inputsMap) (h.outPairs newNode oldNode outputsMap)
  readers : ∀ e ∈ h.outPairs newNode oldNode outputsMap, h.peers e.2 =
    (h.peers e.2).filter (· ∉ (h.inPairs newNode oldNode inputsMap).map Prod.snd) ++
      ((h.inPairs newNode oldNode inputsMap).map Prod.snd).filter (· ∈ h.peers e.2)
  controlled : ∀ p ∈ h.peers (h.node oldNode).inControlAnchor, p ∉ h.peers (h.node newNode).inControlAnchor →
    (h.peers (h.node oldNode).inControlAnchor).count p = 1
  controls : ∀ q ∈ h.peers (h.node oldNode).outControlAnchor, q ∉ h.peers (h.node newNode).outControlAnchor →
    (q = (h.node newNode).inControlAnchor → (h.node newNode).outControlAnchor ∉ h.peers (h.node oldNode).inControlAnchor) →
    (h.peers (h.node oldNode).outControlAnchor).count q = 1

/-- A node without data links takes its own place when the maps are not too long and rename the outputs that feed an input to the same
outputs again. -/
structure ReplaceableByItself (inputsMap outputsMap : List Int) : Prop where
  inputsLength : inputsMap.length ≤ (h.node newNode).inDataAnchors.length
  outputsLength : outputsMap.length ≤ (h.node newNode).outDataAnchors.length
  renamed : ∀ x, (h.kind x).isIn = true →
    (h.peers x).Perm ((h.peers x).map (renameBy (h.outPairs newNode newNode outputsMap)))

end Heap

namespace NodeReplacementAux

open Cmd Heap LinkListsAux MappedAnchorsAux TakenOverAux

variable {h t u t' : Heap} {newNode oldNode : NodeId} {inputsMap outputsMap : List Int} {x p : AnchorId} {ci ci' co co' : AnchorId}

/-! ## Control links -/

/-- The control sources the new node takes over. -/
def taken (t : Heap) (old new : AnchorId) : List AnchorId := (t.peers old).filter (· ∉ t.peers new)

/-- The new control input is linked to what it takes over. -/
def linkedIn (t : Heap) (ci ci' : AnchorId) : Heap := linkAll ((taken t ci ci').map fun p => (p, ci')) t

/-- Both new control anchors are. -/
def linkedBoth (t : Heap) (ci ci' co co' : AnchorId) : Heap :=
  linkAll ((taken (linkedIn t ci ci') co co').map fun q => (co', q)) (linkedIn t ci ci')

/-- A loop that links one pair after the other goes through unless it comes to a data link. -/
theorem eachOk_addEdge (ends : AnchorId → AnchorId × AnchorId) {l : List AnchorId} {t : Heap}
    (hout : ∀ a ∈ l, (t.kind (ends a).1).isIn = false) (hin : ∀ a ∈ l, (t.kind (ends a).2).isIn = true)
    (hdata : ∀ a ∈ l, t.kind (ends a).1 = .outData → t.kind (ends a).2 ≠ .inData) :
    Cmd.eachOk (fun a => addEdge (some (ends a).1) (some (ends a).2)) l t = some (true, linkAll (l.map ends) t) := by
  refine eachOk_linkAll fun before a after hl => ?_
  have ha : a ∈ l := hl ▸ mem_append_right _ mem_cons_self
  have hsame := SameButPeers.linkAll (before.map ends) t
  rw [CallAux.addEdge_apply _ (by rw [hsame.kind]; exact hout a ha) (by rw [hsame.kind]; exact hin a ha), if_neg]
  rintro ⟨hk₁, hk₂, -⟩
  rw [hsame.kind] at hk₁ hk₂
  exact hdata a ha hk₁ hk₂

/-- The control anchors of two nodes, whose links are between outputs and inputs. -/
structure Controls (t : Heap) (newNode oldNode : NodeId) (ci ci' co co' : AnchorId) : Prop where
  sound : t.Sound
  oldIn : (t.node oldNode).inControlAnchor = ci
  newIn : (t.node newNode).inControlAnchor = ci'
  oldOut : (t.node oldNode).outControlAnchor = co
  newOut : (t.node newNode).outControlAnchor = co'
  held : t.Held ci' ∧ t.Held co'
  kindIn : t.kind ci' = .inControl
  kindOut : t.kind co = .outControl ∧ t.kind co' = .outControl
  sources : ∀ p ∈ t.peers ci, (t.kind p).isIn = false
  readers : ∀ q ∈ t.peers co, (t.kind q).isIn = true

section Controls

variable (hc : Controls t newNode oldNode ci ci' co co')
include hc

theorem readers_linkedIn : ∀ q ∈ (linkedIn t ci ci').peers co, (t.kind q).isIn = true := by
  intro q hmem
  rw [linkedIn, peers_linkAll_eq, mem_append, mem_addedPeers] at hmem
  rcases hmem with hmem | hmem | hmem
  · exact hc.readers q hmem
  · obtain ⟨p, -, he⟩ := List.mem_map.mp hmem
    rw [← (Prod.mk.inj he).2, hc.kindIn]
    rfl
  · obtain ⟨p, -, he⟩ := List.mem_map.mp hmem
    have hk := hc.kindOut.1
    rw [← (Prod.mk.inj he).2, hc.kindIn] at hk
    cases hk

/-- Replacing control anchors links both new ones. -/
theorem replaceControlAnchors_eq : replaceControlAnchors newNode oldNode t = some (true, linkedBoth t ci ci' co co') := by
  have hsame : t.SameButPeers (linkedIn t ci ci') := SameButPeers.linkAll _ t
  have hfirst := @eachOk_addEdge (fun p => (p, ci')) (taken t ci ci') t
    (fun p hp => hc.sources p (mem_filter.mp hp).1) (fun p _ => by rw [hc.kindIn]; rfl) fun p _ _ he => by
      rw [hc.kindIn] at he
      cases he
  have hsecond := @eachOk_addEdge (fun q => (co', q)) (taken (linkedIn t ci ci') co co') (linkedIn t ci ci')
    (fun q _ => by rw [hsame.kind, hc.kindOut.2]; rfl)
    (fun q hq => by rw [hsame.kind]; exact readers_linkedIn hc q (mem_filter.mp hq).1) fun q _ he => by
      rw [hsame.kind, hc.kindOut.2] at he
      cases he
  rw [replaceControlAnchors, get_bind_apply, hc.oldIn, hc.newIn]
  show (Cmd.eachOk (fun p => addEdge (some p) (some ci')) (taken t ci ci') >>= _) t = _
  rw [bind_of_eq hfirst]
  simp only [Bool.not_true, Bool.false_eq_true, if_false, get_bind_apply]
  show Cmd.eachOk (fun q => addEdge (some ((linkedIn t ci ci').node newNode).outControlAnchor) (some q))
    (taken (linkedIn t ci ci') ((linkedIn t ci ci').node oldNode).outControlAnchor
      ((linkedIn t ci ci').node newNode).outControlAnchor) (linkedIn t ci ci') = _
  rw [hsame.node, hc.oldOut, hc.newOut]
  exact hsecond

theorem sound_linkedIn : (linkedIn t ci ci').Sound := by
  refine sound_linkAll hc.sound fun e he => ?_
  obtain ⟨p, hp, rfl⟩ := List.mem_map.mp he
  exact ⟨hc.sound.peersHeld ci p (mem_filter.mp hp).1, hc.held.1⟩

theorem sound_linkedBoth : (linkedBoth t ci ci' co co').Sound := by
  have hsame : t.SameButPeers (linkedIn t ci ci') := SameButPeers.linkAll _ t
  refine sound_linkAll (sound_linkedIn hc) fun e he => ?_
  obtain ⟨q, hq, rfl⟩ := List.mem_map.mp he
  exact ⟨(hsame.held co').mpr hc.held.2, (sound_linkedIn hc).peersHeld co q (mem_filter.mp hq).1⟩

/-- Only the new control input gets links first. -/
theorem peers_linkedIn (hx : (t.kind x).isIn = true) :
    (linkedIn t ci ci').peers x = t.peers x ++ if x = ci' then taken t ci ci' else [] := by
  rw [linkedIn, peers_linkAll _ fun e he heq => ?_]
  · by_cases h : x = ci'
    · rw [if_pos h, filter_eq_self.mpr fun e he => ?_]
      · simp [map_map, Function.comp_def]
      · obtain ⟨p, -, rfl⟩ := List.mem_map.mp he
        simp [h]
    · rw [if_neg h, filter_eq_nil_iff.mpr fun e he => ?_]
      · rfl
      · obtain ⟨p, -, rfl⟩ := List.mem_map.mp he
        simpa using Ne.symm h
  · obtain ⟨p, hp, rfl⟩ := List.mem_map.mp he
    have hk := hc.sources p (mem_filter.mp hp).1
    rw [show p = x from heq, hx] at hk
    cases hk

/-- Then inputs are linked to the new control output. -/
theorem peers_linkedBoth (hx : (t.kind x).isIn = true) : (linkedBoth t ci ci' co co').peers x =
    (linkedIn t ci ci').peers x ++ List.replicate ((taken (linkedIn t ci ci') co co').count x) co' := by
  rw [linkedBoth, peers_linkAll _ fun e he heq => ?_]
  · rw [filter_map, map_map]
    have hconst : ((fun e : AnchorId × AnchorId => e.1) ∘ fun q => (co', q)) = fun _ => co' := rfl
    rw [show (Prod.fst ∘ fun q : AnchorId => (co', q)) = fun _ => co' from rfl, map_const']
    congr 2
    rw [count_eq_length_filter]
    rfl
  · obtain ⟨q, hq, rfl⟩ := List.mem_map.mp he
    have hk := hc.kindOut.2
    rw [show co' = x from heq] at hk
    rw [hk] at hx
    cases hx

/-- How often an input is linked to the new control output. -/
theorem count_taken (q : AnchorId) : (taken (linkedIn t ci ci') co co').count q =
    if co' ∈ (linkedIn t ci ci').peers q then 0 else ((linkedIn t ci ci').peers q).count co := by
  have hmem : q ∈ (linkedIn t ci ci').peers co' ↔ co' ∈ (linkedIn t ci ci').peers q :=
    ⟨(sound_linkedIn hc).symm.mem, (sound_linkedIn hc).symm.mem⟩
  rw [taken]
  by_cases hq : co' ∈ (linkedIn t ci ci').peers q
  · rw [if_pos hq, count_eq_zero_of_not_mem]
    intro h
    have := (mem_filter.mp h).2
    simp [hmem.mpr hq] at this
  · rw [if_neg hq, count_filter (by simpa using fun h => hq (hmem.mp h)), (sound_linkedIn hc).symm co q]

/-- What data inputs a data output feeds stays. -/
theorem readers_linkedBoth (hx : t.kind x = .outData) : ((linkedBoth t ci ci' co co').peers x).filter
    (fun p => t.kind p = .inData) =
    (t.peers x).filter fun p => t.kind p = .inData := by
  have hnone : ∀ l : List (AnchorId × AnchorId), (∀ e ∈ l, (e.1 = x → t.kind e.2 ≠ .inData) ∧ (e.2 = x → t.kind e.1 ≠ .inData)) →
      (addedPeers l x).filter (fun p => t.kind p = .inData) = [] := by
    intro l hl
    refine filter_eq_nil_iff.mpr fun y hy => ?_
    rcases mem_addedPeers.mp hy with he | he
    · simpa using (hl _ he).1 rfl
    · simpa using (hl _ he).2 rfl
  rw [linkedBoth, peers_linkAll_eq, linkedIn, peers_linkAll_eq, filter_append, filter_append, hnone _ fun e he => ?_,
    hnone _ fun e he => ?_, append_nil, append_nil]
  · obtain ⟨q, hq, rfl⟩ := List.mem_map.mp he
    refine ⟨fun he => ?_, fun _ => by rw [hc.kindOut.2]; decide⟩
    have hk := hc.kindOut.2
    rw [show co' = x from he, hx] at hk
    cases hk
  · obtain ⟨p, -, rfl⟩ := List.mem_map.mp he
    refine ⟨fun _ => by rw [hc.kindIn]; decide, fun he => ?_⟩
    have hk := hc.kindIn
    rw [show ci' = x from he, hx] at hk
    cases hk

end Controls

/-! ## The run -/

variable {news olds : List AnchorId} {anchorsMap : List Int}

theorem replaceOut_mapped (hvalid : ValidMap olds anchorsMap) :
    Cmd.eachOk (fun e => replaceOut olds e.1 e.2) (news.zip anchorsMap) = Cmd.eachOk replaceOutPair
      (mappedPairs news olds anchorsMap) :=
  eachOk_mapped (fun _ _ hk => by rw [replaceOut, if_pos hk])
    (fun _ _ _ hk ho => by simp only [replaceOut, if_neg (Int.not_lt.mpr hk), ho]; rfl) hvalid.inside

theorem replaceIn_mapped (hvalid : ValidMap olds anchorsMap) :
    Cmd.eachOk (fun e => replaceIn olds e.1 e.2) (news.zip anchorsMap) = Cmd.eachOk replaceInPair
      (mappedPairs news olds anchorsMap) :=
  eachOk_mapped (fun _ _ hk => by rw [replaceIn, if_pos hk])
    (fun _ _ _ hk ho => by simp only [replaceIn, if_neg (Int.not_lt.mpr hk), ho]; rfl) hvalid.inside

/-- The run goes over the pairs of outputs, the pairs of inputs and the control anchors. -/
theorem replaceNodeAnchors_iff (hin : ValidMap (h.node oldNode).inDataAnchors inputsMap)
    (hout : ValidMap (h.node oldNode).outDataAnchors outputsMap) :
    replaceNodeAnchors (some newNode) (some oldNode) inputsMap outputsMap h = some (true, t') ↔
      outputsMap.length ≤ (h.node newNode).outDataAnchors.length ∧ inputsMap.length ≤ (h.node newNode).inDataAnchors.length ∧
      ∃ t u, Cmd.eachOk replaceOutPair (h.outPairs newNode oldNode outputsMap) h = some (true, t) ∧
        Cmd.eachOk replaceInPair (h.inPairs newNode oldNode inputsMap) t = some (true, u) ∧
        replaceControlAnchors newNode oldNode u = some (true, t') := by
  have hrun : replaceNodeAnchors (some newNode) (some oldNode) inputsMap outputsMap h = (do
      if !(← (do
        if !(← replaceOutDataAnchors (h.node newNode).outDataAnchors (h.node oldNode).outDataAnchors outputsMap) then return false
        replaceInDataAnchors (h.node newNode).inDataAnchors (h.node oldNode).inDataAnchors inputsMap :
          Cmd Heap Bool)) then return false
      replaceControlAnchors newNode oldNode : Cmd Heap Bool) h := rfl
  have houts : replaceOutDataAnchors (h.node newNode).outDataAnchors (h.node oldNode).outDataAnchors outputsMap =
      if (h.node newNode).outDataAnchors.length < outputsMap.length then pure false
      else Cmd.eachOk replaceOutPair (h.outPairs newNode oldNode outputsMap) := by
    rw [replaceOutDataAnchors, replaceOut_mapped hout]
    rfl
  have hins : replaceInDataAnchors (h.node newNode).inDataAnchors (h.node oldNode).inDataAnchors inputsMap =
      if (h.node newNode).inDataAnchors.length < inputsMap.length then pure false
      else Cmd.eachOk replaceInPair (h.inPairs newNode oldNode inputsMap) := by
    rw [replaceInDataAnchors, replaceIn_mapped hin]
    rfl
  rw [hrun, houts, hins, andThen_true_iff]
  by_cases hlen : (h.node newNode).outDataAnchors.length < outputsMap.length
  · rw [if_pos hlen]
    refine iff_of_false ?_ fun hall => absurd hall.1 (Nat.not_le.mpr hlen)
    rintro ⟨u, hu, -⟩
    obtain ⟨t, ht, -⟩ := andThen_true_iff.mp hu
    cases ht
  · rw [if_neg hlen, and_iff_right (Nat.not_lt.mp hlen)]
    by_cases hlen' : (h.node newNode).inDataAnchors.length < inputsMap.length
    · rw [if_pos hlen']
      refine iff_of_false ?_ fun hall => absurd hall.1 (Nat.not_le.mpr hlen')
      rintro ⟨u, hu, -⟩
      obtain ⟨t, -, ht⟩ := andThen_true_iff.mp hu
      cases ht
    · rw [if_neg hlen', and_iff_right (Nat.not_lt.mp hlen')]
      constructor
      · rintro ⟨u, hu, hr⟩
        obtain ⟨t, ht, hu⟩ := andThen_true_iff.mp hu
        exact ⟨t, u, ht, hu, hr⟩
      · rintro ⟨t, u, ht, hu, hr⟩
        exact ⟨u, andThen_true_iff.mpr ⟨t, ht, hu⟩, hr⟩

/-! ## Two nodes -/

/-- The pairs of two nodes, the new one without data links. -/
theorem paired (hs : h.Sound) (hnew : newNode < h.nodeCount) (hold : oldNode < h.nodeCount) (hne : newNode ≠ oldNode)
    (hd : h.NoDataEdges newNode) (hin : ValidMap (h.node oldNode).inDataAnchors inputsMap)
    (hout : ValidMap (h.node oldNode).outDataAnchors outputsMap) :
    h.Paired (h.inPairs newNode oldNode inputsMap) (h.outPairs newNode oldNode outputsMap) := by
  have hdisjoint : ∀ k, ∀ a ∈ h.anchorsOf newNode k, a ∉ h.anchorsOf oldNode k := fun k a ha ho =>
    hne ((hs.laid.owner _ hnew k a ha).symm.trans (hs.laid.owner _ hold k a ho))
  have hpair : ∀ k, ∀ e : AnchorId × AnchorId, e.1 ∈ h.anchorsOf newNode k ∧ e.2 ∈ h.anchorsOf oldNode k →
      h.Held e.1 ∧ h.kind e.1 = k ∧ h.kind e.2 = k := fun k e he =>
    ⟨hs.laid.held hnew he.1, hs.laid.kind _ hnew k _ he.1, hs.laid.kind _ hold k _ he.2⟩
  exact ⟨apart_mappedPairs (hs.laid.nodup hnew .inData) (hs.laid.nodup hold .inData) (hdisjoint .inData) hin,
    apart_mappedPairs (hs.laid.nodup hnew .outData) (hs.laid.nodup hold .outData) (hdisjoint .outData) hout,
    fun e he => hpair .inData e (of_mem_mappedPairs he), fun e he => hpair .outData e (of_mem_mappedPairs he),
    fun e he => hd.inputs e.1 (of_mem_mappedPairs he).1, fun e he => hd.outputs e.1 (of_mem_mappedPairs he).1⟩

section Runs

variable {ins outs : List (AnchorId × AnchorId)} (hs : h.Sound) (hp : h.Paired ins outs) (ht : h.OutsReplaced t outs)
  (hu : t.InsReplaced u ins)
include hs hp ht hu

/-- Control anchors keep their links. -/
theorem peers_of_control (hin : h.kind x ≠ .inData) (hout : h.kind x ≠ .outData) : u.peers x = h.peers x := by
  rw [hu.kept x (fun e he => ⟨?_, ?_⟩) (by rwa [ht.same.kind]), peers_of_outsReplaced_control hs hp ht hin hout]
  · rintro rfl
    exact hin (hp.inputs e he).2.1
  · rintro rfl
    exact hin (hp.inputs e he).2.2

/-- The control anchors of the nodes after the data links were moved. -/
theorem controls_of_replaced (hd : h.Directed) (hnew : newNode < h.nodeCount) (hold : oldNode < h.nodeCount) :
    Controls u newNode oldNode (h.node oldNode).inControlAnchor (h.node newNode).inControlAnchor (h.node oldNode).outControlAnchor
      (h.node newNode).outControlAnchor := by
  have hsame : h.SameButPeers u := SameButPeers.trans ht.same hu.same
  have hci := controlAnchor hs hold (k := .inControl) rfl
  have hci' := controlAnchor hs hnew (k := .inControl) rfl
  have hco := controlAnchor hs hold (k := .outControl) rfl
  have hco' := controlAnchor hs hnew (k := .outControl) rfl
  refine ⟨hu.sound, by rw [hsame.node], by rw [hsame.node], by rw [hsame.node], by rw [hsame.node],
    ⟨(hsame.held _).mpr hci'.1, (hsame.held _).mpr hco'.1⟩, (hsame.kind _).trans hci'.2.1,
    ⟨(hsame.kind _).trans hco.2.1, (hsame.kind _).trans hco'.2.1⟩, fun p hmem => ?_, fun q hmem => ?_⟩
  · rw [peers_of_control hs hp ht hu (by rw [hci.2.1]; decide) (by rw [hci.2.1]; decide)] at hmem
    rw [hsame.kind, hd _ p hmem, hci.2.1]
    rfl
  · rw [peers_of_control hs hp ht hu (by rw [hco.2.1]; decide) (by rw [hco.2.1]; decide)] at hmem
    rw [hsame.kind, hd _ q hmem, hco.2.1]
    rfl

end Runs

/-! ## When the links are taken over -/

section Taken

variable {ins outs : List (AnchorId × AnchorId)} (hs : h.Sound) (hp : h.Paired ins outs) (hd : h.Directed)
  (ht : h.OutsReplaced t outs) (hu : t.InsReplaced u ins) (hc : Controls u newNode oldNode ci ci' co co')

/-- The links an input may get are from the new control output, but for those of the new control input. -/
structure ExtraLinks (h : Heap) (ci' co' : AnchorId) (t' : Heap) (taken : AnchorId → List AnchorId)
    (P : AnchorId → AnchorId → Prop) :
    Prop where
  perm : ∀ x, (h.kind x).isIn = true → ∃ extra : List AnchorId, (t'.peers x).Perm (taken x ++ extra) ∧ extra.Nodup ∧
    ∀ p ∈ extra, p ∉ taken x ∧ P x p
  ends : ∀ x p, P x p → x = ci' ∨ p = co'
  kinds : h.kind ci' = .inControl ∧ h.kind co' = .outControl

variable {taken : AnchorId → List AnchorId} {P : AnchorId → AnchorId → Prop}

/-- A link that is not taken over is there once at most. -/
theorem ExtraLinks.count_le (he : ExtraLinks h ci' co' t' taken P)
    (hx : (h.kind x).isIn = true) (hnot : p ∉ taken x) : (t'.peers x).count p ≤ 1 := by
  obtain ⟨extra, hperm, hnd, -⟩ := he.perm x hx
  rw [hperm.count_eq, count_append, count_eq_zero_of_not_mem hnot, Nat.zero_add]
  exact nodup_iff_count_le_one.mp hnd p

/-- A data link of a data input is taken over. -/
theorem ExtraLinks.mem_taken (he : ExtraLinks h ci' co' t' taken P)
    (hx : h.kind x = .inData) (hpk : h.kind p = .outData) (hmem : p ∈ t'.peers x) : p ∈ taken x := by
  obtain ⟨extra, hperm, -, hextra⟩ := he.perm x (by rw [hx]; rfl)
  refine (mem_append.mp (hperm.subset hmem)).resolve_right fun hmem => ?_
  rcases he.ends x p (hextra p hmem).2 with rfl | rfl
  · exact absurd (hx.symm.trans he.kinds.1) (by decide)
  · exact absurd (hpk.symm.trans he.kinds.2) (by decide)

/-- Links of inputs are not lost when control anchors are linked. -/
theorem mem_linkedBoth (hc : Controls u newNode oldNode ci ci' co co') (hx : (u.kind x).isIn = true) (hmem : p ∈ u.peers x) :
    p ∈ (linkedBoth u ci ci' co co').peers x := by
  rw [peers_linkedBoth hc hx, peers_linkedIn hc hx]
  exact mem_append_left _ (mem_append_left _ hmem)

include hs hp hd ht hu hc in
/-- Where the mapped links are moved and nothing else is, they can be taken over. -/
theorem takesOver_of_extraLinks (hsingle : h.OutsSingle outs) (hfree : t.InsFree ins) (hne : h.kind ci = .inControl ∧ ci ≠ ci')
    (he : ExtraLinks h ci' co' (linkedBoth u ci ci' co co') (h.takenOver ins outs) P)
    (hci : ∀ p, P ci' p → p = co' ∨ p ∈ h.peers ci) : h.TakesOver ins outs := by
  have hsame : h.SameButPeers u := SameButPeers.trans ht.same hu.same
  refine ⟨fun e hmem p hpe => ?_, fun e hmem s hs' hks => ?_, (insFree_iff hs hp ht hsingle).mp hfree⟩
  · obtain ⟨-, hk₁, hk₂⟩ := hp.outputs e hmem
    have hin : (h.kind p).isIn = true := by
      rw [hd e.2 p hpe, hk₂]
      rfl
    by_cases hkp : h.kind p = .inData
    · exact ⟨hkp, hsingle e hmem p (mem_filter.mpr ⟨hpe, decide_eq_true hkp⟩)⟩
    · -- a control input that a mapped output is linked to keeps the link
      exfalso
      have hkept : ∀ c, (h.kind c).isIn = true → h.kind c ≠ .inData → c ∈ h.peers e.2 → c = ci' ∧ e.2 ∈ h.peers ci := by
        intro c hcin hkc hce
        have hco : h.kind c ≠ .outData := fun hk => by rw [hk] at hcin; cases hcin
        obtain ⟨extra, hperm, -, hextra⟩ := he.perm c hcin
        have hback : e.2 ∈ u.peers c := by
          rw [peers_of_control hs hp ht hu hkc hco]
          exact hs.symm.mem hce
        have hold : c ∉ ins.map Prod.snd := fun hm => by
          obtain ⟨d, hd', rfl⟩ := List.mem_map.mp hm
          exact hkc (hp.inputs d hd').2.2
        have hnone : ins.find? (fun d => d.1 = c) = none :=
          find?_eq_none.mpr fun d hd' => by
            simp only [decide_eq_true_eq]
            rintro rfl
            exact hkc (hp.inputs d hd').2.1
        have hnot : e.2 ∉ h.takenOver ins outs c := by
          rw [Heap.takenOver, if_neg hold, hnone, Option.elim_none, append_nil]
          intro hm
          obtain ⟨y, -, hy⟩ := List.mem_map.mp hm
          rcases renameBy_cases hp.apartOuts y with ⟨d, hd', -, hr⟩ | ⟨hyold, hr⟩
          · exact hp.apartOuts.sides d hd' e hmem (hr.symm.trans hy)
          · exact hyold ((hr.symm.trans hy) ▸ mem_map_of_mem hmem)
        have hin' := (mem_append.mp (hperm.subset
          (mem_linkedBoth hc (by rw [hsame.kind]; exact hcin) hback))).resolve_left hnot
        have hP := (hextra _ hin').2
        have hnco : e.2 ≠ co' := by
          rintro heq
          have hk := he.kinds.2
          rw [← heq, hk₂] at hk
          cases hk
        obtain rfl := (he.ends c e.2 hP).resolve_right hnco
        exact ⟨rfl, (hci _ hP).resolve_left hnco⟩
      obtain ⟨-, hfirst⟩ := hkept p hin hkp hpe
      obtain ⟨heq, -⟩ := hkept ci (by rw [hne.1]; rfl) (by rw [hne.1]; decide) (hs.symm.mem hfirst)
      exact hne.2 heq
  · obtain ⟨-, -, hk₂⟩ := hp.inputs e hmem
    have hmoved : renameBy outs s ∈ (t.peers e.2).tail := by
      rw [peers_of_outsReplaced hs hp ht hsingle hk₂, ← map_tail]
      exact mem_map_of_mem hs'
    have hleft : renameBy outs s ∈ u.peers e.2 := by
      rw [hu.olds e hmem]
      split
      · exact hmoved
      · exact mem_of_mem_tail hmoved
    have hkr : h.kind (renameBy outs s) = .outData := (kind_renameBy hp s).trans hks
    have htaken := he.mem_taken hk₂ hkr (mem_linkedBoth hc (by rw [hsame.kind, hk₂]; rfl) hleft)
    rw [Heap.takenOver, if_pos (mem_map_of_mem hmem), find_old hp hmem, Option.elim_none, append_nil] at htaken
    exact absurd hkr (by simpa using (mem_filter.mp htaken).2)

end Taken

/-! ## When control links are not repeated -/

section Repeated

variable (hc : Controls u newNode oldNode ci ci' co co')
include hc

omit hc in
/-- What is taken over is as often there as it was. -/
theorem count_taken_of_not_mem (hnot : p ∉ u.peers ci') : (taken u ci ci').count p = (u.peers ci).count p :=
  count_filter (by simpa using hnot)

/-- Where no link is made twice, links that are taken over are single. -/
theorem single_of_count_le (hle : ∀ x p, (u.kind x).isIn = true → p ∉ u.peers x →
    ((linkedBoth u ci ci' co co').peers x).count p ≤ 1) :
    (∀ p ∈ u.peers ci, p ∉ u.peers ci' → (u.peers ci).count p = 1) ∧
      ∀ q ∈ u.peers co, q ∉ u.peers co' → (q = ci' → co' ∉ u.peers ci) → (u.peers co).count q = 1 := by
  constructor
  · intro p hmem hnot
    have hx : (u.kind ci').isIn = true := by rw [hc.kindIn]; rfl
    have hcount := hle ci' p hx hnot
    have hpos := count_pos_iff.mpr hmem
    rw [peers_linkedBoth hc hx, peers_linkedIn hc hx, if_pos rfl, count_append, count_append,
      count_taken_of_not_mem hnot] at hcount
    omega
  · intro q hmem hnot hself
    have hx : (u.kind q).isIn = true := hc.readers q hmem
    have hnot' : co' ∉ u.peers q := fun h => hnot (hc.sound.symm.mem h)
    have hfirst : co' ∉ (linkedIn u ci ci').peers q := by
      rw [peers_linkedIn hc hx, mem_append, not_or]
      refine ⟨hnot', fun h => ?_⟩
      split at h
      · exact hself ‹_› (mem_filter.mp h).1
      · cases h
    have hcount := hle q co' hx hnot'
    have hpos := count_pos_iff.mpr hmem
    rw [peers_linkedBoth hc hx, count_append, count_replicate_self, count_taken hc, if_neg hfirst] at hcount
    have hle : (u.peers q).count co ≤ ((linkedIn u ci ci').peers q).count co := by
      rw [peers_linkedIn hc hx, count_append]
      exact Nat.le_add_right _ _
    rw [hc.sound.symm co q] at hpos ⊢
    omega

/-- Where links that are taken over are single, no link is made twice, and all are taken over. -/
theorem extra_of_single (hci : ∀ p ∈ u.peers ci, p ∉ u.peers ci' → (u.peers ci).count p = 1)
    (hco : ∀ q ∈ u.peers co, q ∉ u.peers co' → (q = ci' → co' ∉ u.peers ci) → (u.peers co).count q = 1)
      (hx : (u.kind x).isIn = true) :
    ∃ extra : List AnchorId, (linkedBoth u ci ci' co co').peers x = u.peers x ++ extra ∧ extra.Nodup ∧ ∀ p ∈ extra, p ∉ u.peers x ∧
      (x = ci' ∧ p ∈ u.peers ci ∨ p = co' ∧ (x ∈ u.peers co ∨ x = ci' ∧ ci ∈ u.peers co)) := by
  have hnodup : (taken u ci ci').Nodup := nodup_iff_count_le_one.mpr fun p => by
    by_cases hp : p ∈ taken u ci ci'
    · obtain ⟨hmem, hnot⟩ := mem_filter.mp hp
      have hnot : p ∉ u.peers ci' := of_decide_eq_true hnot
      rw [count_taken_of_not_mem hnot, hci p hmem hnot]
    · rw [count_eq_zero_of_not_mem hp]
      exact Nat.zero_le 1
  have hfirst := peers_linkedIn hc hx
  -- a second link from the new control output would be one of the old control output twice
  have hout : 0 < (taken (linkedIn u ci ci') co co').count x → co' ∉ (linkedIn u ci ci').peers x ∧
    co ∈ (linkedIn u ci ci').peers x ∧
      (taken (linkedIn u ci ci') co co').count x ≤ 1 := by
    intro hpos
    rw [count_taken hc] at hpos ⊢
    by_cases hnew : co' ∈ (linkedIn u ci ci').peers x
    · rw [if_pos hnew] at hpos
      exact absurd hpos (Nat.lt_irrefl 0)
    · rw [if_neg hnew] at hpos ⊢
      refine ⟨hnew, count_pos_iff.mp hpos, ?_⟩
      rw [hfirst, mem_append, not_or] at hnew
      have hnot : x ∉ u.peers co' := fun h => hnew.1 (hc.sound.symm.mem h)
      rw [hfirst, count_append]
      by_cases hmem : co ∈ u.peers x
      · have hself : x = ci' → co' ∉ u.peers ci := by
          rintro rfl hin
          rw [if_pos rfl] at hnew
          exact hnew.2 (mem_filter.mpr ⟨hin, by simpa using hnew.1⟩)
        have hone := hco x (hc.sound.symm.mem hmem) hnot hself
        rw [hc.sound.symm co x] at hone
        have hzero : (if x = ci' then taken u ci ci' else []).count co = 0 := by
          refine count_eq_zero_of_not_mem fun h => ?_
          split at h
          · subst x
            exact of_decide_eq_true (mem_filter.mp h).2 hmem
          · cases h
        omega
      · rw [count_eq_zero_of_not_mem hmem, Nat.zero_add]
        split
        · exact nodup_iff_count_le_one.mp hnodup co
        · exact Nat.zero_le 1
  refine ⟨(if x = ci' then taken u ci ci' else []) ++ List.replicate ((taken (linkedIn u ci ci') co co').count x) co', ?_, ?_, ?_⟩
  · rw [peers_linkedBoth hc hx, hfirst, append_assoc]
  · refine nodup_append.mpr ⟨?_, ?_, fun p hp q hq hpq => ?_⟩
    · split
      · exact hnodup
      · exact nodup_nil
    · refine nodup_replicate.mpr ?_
      by_cases hpos : 0 < (taken (linkedIn u ci ci') co co').count x
      · exact (hout hpos).2.2
      · omega
    · obtain ⟨hpos, rfl⟩ := mem_replicate.mp hq
      have hnew := (hout (Nat.pos_of_ne_zero hpos)).1
      rw [hfirst, mem_append, not_or] at hnew
      exact hnew.2 (hpq ▸ hp)
  · intro p hp
    rcases mem_append.mp hp with hp | hp
    · split at hp
      · obtain ⟨hmem, hnot⟩ := mem_filter.mp hp
        exact ⟨by rw [‹x = ci'›]; exact of_decide_eq_true hnot, .inl ⟨‹_›, hmem⟩⟩
      · cases hp
    · obtain ⟨hpos, rfl⟩ := mem_replicate.mp hp
      obtain ⟨hnew, hold, -⟩ := hout (Nat.pos_of_ne_zero hpos)
      rw [hfirst, mem_append] at hnew hold
      refine ⟨fun h => hnew (.inl h), .inr ⟨rfl, hold.imp (hc.sound.symm.mem ·) fun h => ?_⟩⟩
      split at h
      · exact ⟨‹_›, hc.sound.symm.mem (mem_filter.mp h).1⟩
      · cases h

/-- The new control anchors have the links of the old ones. -/
theorem controls_linkedBoth : (∀ p ∈ u.peers ci, p ∈ (linkedBoth u ci ci' co co').peers ci') ∧
    ∀ q ∈ u.peers co, q ∈ (linkedBoth u ci ci' co co').peers co' := by
  constructor
  · intro p hmem
    have hx : (u.kind ci').isIn = true := by rw [hc.kindIn]; rfl
    rw [peers_linkedBoth hc hx, peers_linkedIn hc hx, if_pos rfl]
    refine mem_append_left _ ?_
    by_cases hnew : p ∈ u.peers ci'
    · exact mem_append_left _ hnew
    · exact mem_append_right _ (mem_filter.mpr ⟨hmem, by simpa using hnew⟩)
  · intro q hmem
    have hx : (u.kind q).isIn = true := hc.readers q hmem
    refine (sound_linkedBoth hc).symm.mem ?_
    rw [peers_linkedBoth hc hx]
    by_cases hnew : co' ∈ (linkedIn u ci ci').peers q
    · exact mem_append_left _ hnew
    · refine mem_append_right _ (mem_replicate.mpr ⟨?_, rfl⟩)
      rw [count_taken hc, if_neg hnew]
      refine Nat.ne_of_gt (count_pos_iff.mpr ?_)
      rw [peers_linkedIn hc hx]
      exact mem_append_left _ (hc.sound.symm.mem hmem)

end Repeated

/-! ## Both directions -/

section Nodes

variable (hs : h.Sound) (hd : h.Directed) (hnew : newNode < h.nodeCount) (hold : oldNode < h.nodeCount)
  (hdata : h.NoDataEdges newNode) (hin : ValidMap (h.node oldNode).inDataAnchors inputsMap)
  (hout : ValidMap (h.node oldNode).outDataAnchors outputsMap)

variable {n : NodeId} {ins outs : List (AnchorId × AnchorId)}

/-- The kinds of the control anchors. -/
theorem controlKinds (hs : h.Sound) (hn : n < h.nodeCount) :
    h.kind (h.node n).inControlAnchor = .inControl ∧ h.kind (h.node n).outControlAnchor = .outControl :=
  ⟨(controlAnchor hs hn (k := .inControl) rfl).2.1, (controlAnchor hs hn (k := .outControl) rfl).2.1⟩

/-- The data links of pairs were moved. -/
structure DataReplaced (h t u : Heap) (ins outs : List (AnchorId × AnchorId)) : Prop where
  paired : h.Paired ins outs
  outsReplaced : h.OutsReplaced t outs
  insReplaced : t.InsReplaced u ins
  single : h.OutsSingle outs
  free : t.InsFree ins

include hs in
/-- The control anchors of a node keep their links. -/
theorem DataReplaced.controls (hm : DataReplaced h t u ins outs) (hn : n < h.nodeCount) :
    u.peers (h.node n).inControlAnchor = h.peers (h.node n).inControlAnchor ∧
      u.peers (h.node n).outControlAnchor = h.peers (h.node n).outControlAnchor := by
  obtain ⟨hk, hk'⟩ := controlKinds hs hn
  have hctrl : ∀ x, h.kind x ≠ .inData → h.kind x ≠ .outData → u.peers x = h.peers x := fun x =>
    peers_of_control hs hm.paired hm.outsReplaced hm.insReplaced
  exact ⟨hctrl _ (by rw [hk]; decide) (by rw [hk]; decide), hctrl _ (by rw [hk']; decide) (by rw [hk']; decide)⟩

include hs in
/-- Rounds that go through moved the data links. -/
theorem dataReplaced_of_run (hp : h.Paired ins outs)
    (ht : Cmd.eachOk replaceOutPair outs h = some (true, t)) (hu : Cmd.eachOk replaceInPair ins t = some (true, u)) :
    DataReplaced h t u ins outs := by
  rcases replaceOuts_pairs hs hp.apartOuts hp.outputs with ⟨hsingle, t', ht', houts⟩ | ⟨-, t', ht'⟩
  · obtain rfl : t = t' := (Prod.mk.inj (Option.some.inj (ht.symm.trans ht'))).2
    have hk : ∀ e ∈ ins, t.Held e.1 ∧ t.kind e.1 = .inData ∧ t.kind e.2 = .inData := by
      intro e he
      rw [houts.same.held, houts.same.kind, houts.same.kind]
      exact hp.inputs e he
    rcases replaceIns_pairs houts.sound hp.apartIns hk with ⟨hfree, u', hu', hins⟩ | ⟨-, u', hu'⟩
    · obtain rfl : u = u' := (Prod.mk.inj (Option.some.inj (hu.symm.trans hu'))).2
      exact ⟨hp, houts, hins, hsingle, hfree⟩
    · cases hu.symm.trans hu'
  · cases ht.symm.trans ht'

include hs in
/-- The rounds go through when the links can be taken over. -/
theorem run_of_takesOver (hp : h.Paired ins outs) (hc : h.TakesOver ins outs) :
    ∃ t u, Cmd.eachOk replaceOutPair outs h = some (true, t) ∧ Cmd.eachOk replaceInPair ins t = some (true, u) ∧
      DataReplaced h t u ins outs := by
  have hsingle := outsSingle_of_takesOver hc
  rcases replaceOuts_pairs hs hp.apartOuts hp.outputs with ⟨-, t, ht, houts⟩ | ⟨hnot, -⟩
  · have hk : ∀ e ∈ ins, t.Held e.1 ∧ t.kind e.1 = .inData ∧ t.kind e.2 = .inData := by
      intro e he
      rw [houts.same.held, houts.same.kind, houts.same.kind]
      exact hp.inputs e he
    have hfree := (insFree_iff hs hp houts hsingle).mpr hc.free
    rcases replaceIns_pairs houts.sound hp.apartIns hk with ⟨-, u, hu, hins⟩ | ⟨hnot, -⟩
    · exact ⟨t, u, ht, hu, hp, houts, hins, hsingle, hfree⟩
    · exact absurd hfree hnot
  · exact absurd hsingle hnot

include hs hd hnew hold hdata hin hout in
/-- Where the mapped links of another node are moved and nothing else is, the nodes meet the condition. -/
theorem replaceable_of_replaces (hne : newNode ≠ oldNode) (hrep : h.ReplacesAnchors newNode oldNode inputsMap outputsMap) :
    h.Replaceable newNode oldNode inputsMap outputsMap := by
  obtain ⟨h', hr, hrep⟩ := hrep
  obtain ⟨hlen, hlen', t, u, ht, hu, hr⟩ := (replaceNodeAnchors_iff hin hout).mp hr
  have hm := dataReplaced_of_run hs (paired hs hnew hold hne hdata hin hout) ht hu
  have hsame : h.SameButPeers u := SameButPeers.trans hm.outsReplaced.same hm.insReplaced.same
  have hc := controls_of_replaced hs hm.paired hm.outsReplaced hm.insReplaced hd hnew hold
  obtain rfl : h' = _ := (Prod.mk.inj (Option.some.inj (hr.symm.trans (replaceControlAnchors_eq hc)))).2
  have hk := controlKinds hs hnew
  have hk' := controlKinds hs hold
  have he : ExtraLinks h (h.node newNode).inControlAnchor (h.node newNode).outControlAnchor _ _ (h.ControlTaken newNode oldNode) :=
    ⟨hrep.inputs, fun x p hP => hP.imp And.left And.left, hk⟩
  have hdiff : (h.node oldNode).inControlAnchor ≠ (h.node newNode).inControlAnchor := by
    intro heq
    have ho := (controlAnchor hs hold (k := .inControl) rfl).2.2
    rw [heq, (controlAnchor hs hnew (k := .inControl) rfl).2.2] at ho
    exact hne ho
  have htakes := takesOver_of_extraLinks hs hm.paired hd hm.outsReplaced hm.insReplaced hc hm.single hm.free ⟨hk'.1, hdiff⟩ he
    fun p hP => hP.elim (fun hP => .inr hP.2) fun hP => .inl hP.1
  have hbase : ∀ x, (h.kind x).isIn = true → u.peers x = h.takenOver _ _ x := fun x hx =>
    peers_of_replaced hs hm.paired hm.outsReplaced hm.insReplaced htakes hx
  have hsingle := single_of_count_le hc fun x p hx hnot => by
    rw [hsame.kind] at hx
    rw [hbase x hx] at hnot
    exact he.count_le hx hnot
  rw [(hm.controls hs hnew).1, (hm.controls hs hnew).2, (hm.controls hs hold).1, (hm.controls hs hold).2] at hsingle
  refine ⟨hlen', hlen, htakes, fun e hmem => ?_, hsingle.1, hsingle.2⟩
  refine (readers_iff hs hm.paired hm.outsReplaced hm.insReplaced htakes hmem).mp ?_
  have hkind : u.kind = h.kind := funext hsame.kind
  have hreaders := readers_linkedBoth hc (x := e.1) (by rw [hkind]; exact (hm.paired.outputs e hmem).2.1)
  rw [hkind] at hreaders
  exact hreaders.symm.trans (hrep.readers e hmem)

include hs hd hnew hold hdata hin hout in
/-- Nodes that meet the condition have the mapped links moved. -/
theorem replaces_of_replaceable (hne : newNode ≠ oldNode) (hcond : h.Replaceable newNode oldNode inputsMap outputsMap) :
    h.ReplacesAnchors newNode oldNode inputsMap outputsMap := by
  obtain ⟨t, u, ht, hu, hm⟩ := run_of_takesOver hs (paired hs hnew hold hne hdata hin hout) hcond.takesOver
  have hsame : h.SameButPeers u := SameButPeers.trans hm.outsReplaced.same hm.insReplaced.same
  have hkind : u.kind = h.kind := funext hsame.kind
  have hc := controls_of_replaced hs hm.paired hm.outsReplaced hm.insReplaced hd hnew hold
  obtain ⟨hci, hco⟩ := hm.controls hs hold
  obtain ⟨hci', hco'⟩ := hm.controls hs hnew
  have hends := controls_linkedBoth hc
  rw [hci, hco] at hends
  refine ⟨_, (replaceNodeAnchors_iff hin hout).mpr
    ⟨hcond.outputsLength, hcond.inputsLength, t, u, ht, hu, replaceControlAnchors_eq hc⟩,
    fun x hx => ?_, fun e hmem => ?_, hends.1, hends.2⟩
  · obtain ⟨extra, hpeers, hnd, hextra⟩ := extra_of_single hc (by rw [hci, hci']; exact hcond.controlled)
      (by rw [hci, hco, hco']; exact hcond.controls) (x := x) (by rw [hkind]; exact hx)
    rw [hci, hco, peers_of_replaced hs hm.paired hm.outsReplaced hm.insReplaced hcond.takesOver hx] at hextra
    rw [peers_of_replaced hs hm.paired hm.outsReplaced hm.insReplaced hcond.takesOver hx] at hpeers
    exact ⟨extra, .of_eq hpeers, hnd, hextra⟩
  · have hreaders := readers_linkedBoth hc (x := e.1) (by rw [hkind]; exact (hm.paired.outputs e hmem).2.1)
    rw [hkind] at hreaders
    rw [hreaders]
    exact (readers_iff hs hm.paired hm.outsReplaced hm.insReplaced hcond.takesOver hmem).mpr (hcond.readers e hmem)

/-- A loop whose rounds change nothing changes nothing. -/
theorem eachOk_idle {α : Type} {f : α → Cmd Heap Bool} {l : List α} (hf : ∀ a ∈ l, f a h = some (true, h)) :
    Cmd.eachOk f l h = some (true, h) := by
  induction l with
  | nil => rfl
  | cons a l ih =>
    rw [Cmd.eachOk, bind_of_eq (hf a mem_cons_self)]
    exact ih fun b hb => hf b (mem_cons_of_mem a hb)

include hdata in
/-- Replacing a node without data links by itself changes nothing. -/
theorem replaceNodeAnchors_itself (hin : ValidMap (h.node newNode).inDataAnchors inputsMap)
    (hout : ValidMap (h.node newNode).outDataAnchors outputsMap) (hlen : inputsMap.length ≤ (h.node newNode).inDataAnchors.length)
    (hlen' : outputsMap.length ≤ (h.node newNode).outDataAnchors.length) :
    replaceNodeAnchors (some newNode) (some newNode) inputsMap outputsMap h = some (true, h) := by
  have hrunOut : ∀ e ∈ h.outPairs newNode newNode outputsMap, replaceOutPair e h = some (true, h) := by
    intro e he
    have hnone : OutDataAnchor.getPeerInDataAnchors h e.2 = [] := by
      refine filter_eq_nil_iff.mpr fun p hp => ?_
      simpa using hdata.outputs e.2 (of_mem_mappedPairs he).2 p hp
    rw [replaceOutPair_apply, hnone]
    rfl
  have hrunIn : ∀ e ∈ h.inPairs newNode newNode inputsMap, replaceInPair e h = some (true, h) := by
    intro e he
    have hnone : InDataAnchor.getPeerOutAnchor h e.2 = none := by
      refine Option.eq_none_iff_forall_ne_some.mpr fun s hx => ?_
      obtain ⟨hks, hpeers⟩ := of_getPeerOutAnchor hx
      exact hdata.inputs e.2 (of_mem_mappedPairs he).2 s (hpeers ▸ mem_cons_self) hks
    rw [replaceInPair, get_bind_apply, hnone]
    rfl
  have hcontrol : replaceControlAnchors newNode newNode h = some (true, h) := by
    have hnil : ∀ l : List AnchorId, l.filter (· ∉ l) = [] := fun l => filter_eq_nil_iff.mpr fun a ha => by simpa using ha
    rw [replaceControlAnchors, get_bind_apply]
    simp only [hnil]
    rfl
  exact (replaceNodeAnchors_iff hin hout).mpr ⟨hlen', hlen, h, h, eachOk_idle hrunOut, eachOk_idle hrunIn, hcontrol⟩

include hs hnew hdata in
/-- The inputs of a node without data links are due what they have, renamed. -/
theorem takenOver_itself : h.takenOver (h.inPairs newNode newNode inputsMap) (h.outPairs newNode newNode outputsMap) x =
      (h.peers x).map (renameBy (h.outPairs newNode newNode outputsMap)) := by
  have hnone : ∀ e ∈ h.inPairs newNode newNode inputsMap, (h.peers e.2).filter (fun s => h.kind s = .outData) = [] := fun e he =>
    filter_eq_nil_iff.mpr fun s hs' => by simpa using hdata.inputs e.2 (of_mem_mappedPairs he).2 s hs'
  have hfound : ((h.inPairs newNode newNode inputsMap).find? fun e => e.1 = x).elim []
      (fun e => ((h.peers e.2).filter fun s => h.kind s = .outData).map (renameBy (h.outPairs newNode newNode outputsMap))) =
        [] := by
    cases hf : (h.inPairs newNode newNode inputsMap).find? fun e => e.1 = x with
    | none => rfl
    | some e => rw [Option.elim_some, hnone e (mem_of_find?_eq_some hf), map_nil]
  rw [Heap.takenOver, hfound, append_nil]
  split
  · rename_i hold
    obtain ⟨e, he, rfl⟩ := List.mem_map.mp hold
    have hnodata := hdata.inputs e.2 (of_mem_mappedPairs he).2
    rw [filter_eq_self.mpr fun s hs' => by simpa using hnodata s hs']
    -- the anchors renamed are data outputs
    have hkept : ∀ s ∈ h.peers e.2, renameBy (h.outPairs newNode newNode outputsMap) s = id s := by
      refine fun s hmem => renameBy_of_not_mem fun hsold => ?_
      obtain ⟨d, hd, rfl⟩ := List.mem_map.mp hsold
      exact hnodata d.2 hmem (hs.laid.kind _ hnew .outData _ (of_mem_mappedPairs hd).2)
    rw [map_congr_left hkept, map_id]
  · rfl

include hs hnew hdata in
/-- A node without data links takes its own place when it meets the condition. -/
theorem replacesAnchors_itself (hin : ValidMap (h.node newNode).inDataAnchors inputsMap)
    (hout : ValidMap (h.node newNode).outDataAnchors outputsMap) :
    h.ReplacesAnchors newNode newNode inputsMap outputsMap ↔ h.ReplaceableByItself newNode inputsMap outputsMap := by
  constructor
  · rintro ⟨h', hr, hrep⟩
    obtain ⟨hlen', hlen, -⟩ := (replaceNodeAnchors_iff hin hout).mp hr
    rw [replaceNodeAnchors_itself hdata hin hout hlen hlen'] at hr
    obtain rfl := (Prod.mk.inj (Option.some.inj hr)).2
    refine ⟨hlen, hlen', fun x hx => ?_⟩
    obtain ⟨extra, hperm, -⟩ := hrep.inputs x hx
    rw [takenOver_itself hs hnew hdata] at hperm
    -- what the input has is as long as what it is due, so there is no more
    have hnil : extra = [] := by
      have hlength := hperm.length_eq
      rw [length_append, length_map] at hlength
      exact eq_nil_of_length_eq_zero (by omega)
    rwa [hnil, append_nil] at hperm
  · intro hcond
    refine ⟨h, replaceNodeAnchors_itself hdata hin hout hcond.inputsLength hcond.outputsLength,
      fun x hx => ⟨[], ?_, nodup_nil, nofun⟩, fun e he => ?_, fun p hp => hp, fun q hq => hq⟩
    · rw [append_nil, takenOver_itself hs hnew hdata]
      exact hcond.renamed x hx
    · have hnone : ∀ o ∈ (h.node newNode).outDataAnchors, (h.peers o).filter (fun p => h.kind p = .inData) = [] := fun o ho =>
        filter_eq_nil_iff.mpr fun p hp => by simpa using hdata.outputs o ho p hp
      rw [hnone e.1 (of_mem_mappedPairs he).1, hnone e.2 (of_mem_mappedPairs he).2, map_nil]

end Nodes

end NodeReplacementAux

open NodeReplacementAux in
/-- Replacing the anchors of a node moves the mapped links and nothing else exactly when the nodes meet the condition. -/
theorem replacesAnchors_iff (h : Heap) (newNode oldNode : NodeId) (inputsMap outputsMap : List Int) (hs : h.Sound) (hd : h.Directed)
    (hnew : newNode < h.nodeCount) (hold : oldNode < h.nodeCount) (hdata : h.NoDataEdges newNode)
    (hin : Heap.ValidMap (h.node oldNode).inDataAnchors inputsMap)
      (hout : Heap.ValidMap (h.node oldNode).outDataAnchors outputsMap) :
    h.ReplacesAnchors newNode oldNode inputsMap outputsMap ↔
      if newNode = oldNode then h.ReplaceableByItself newNode inputsMap outputsMap
      else h.Replaceable newNode oldNode inputsMap outputsMap := by
  by_cases hne : newNode = oldNode
  · subst hne
    rw [if_pos rfl]
    exact replacesAnchors_itself hs hnew hdata hin hout
  · rw [if_neg hne]
    exact ⟨replaceable_of_replaces hs hd hnew hold hdata hin hout hne, replaces_of_replaceable hs hd hnew hold hdata hin hout hne⟩

namespace NodeReplacementWitness

/-- A node between a source and a reader, and a node to take its place; the output of the node also comes before the reader. Control
anchors come first. -/
def calls (controlled : Bool) : List LinkCall :=
  [.newOp { opDef := { name := "a", type := "Data" }, outputsDesc := [{}] }, .newNode 0,
    .newOp { opDef := { name := "n", type := "Relu" }, inputsDesc := [{}], outputsDesc := [{}] }, .newNode 1,
    .newOp { opDef := { name := "b", type := "Relu" }, inputsDesc := [{}] }, .newNode 2,
    .newOp { opDef := { name := "m", type := "Relu6" }, inputsDesc := [{}], outputsDesc := [{}] }, .newNode 3,
    .addDataEdge (some 2) (some 5), if controlled then .addDataControlEdge (some 6) (some 7) else .addDataEdge (some 6) (some 9)]

def heap (controlled : Bool) : Heap := (LinkCall.runAll (calls controlled)).getD .empty

theorem sound_heap (controlled : Bool) : (heap controlled).Sound :=
  sound_runAll (calls controlled) (heap controlled) (by cases controlled <;> decide +kernel) (by cases controlled <;> rfl)

theorem facts_heap (controlled : Bool) : (heap controlled).Directed ∧ (heap controlled).NoDataEdges 3 ∧
    Heap.ValidMap ((heap controlled).node 1).inDataAnchors [0] ∧ Heap.ValidMap ((heap controlled).node 1).outDataAnchors [0] := by
  refine ⟨(sound_heap controlled).forall_peers ?_, ⟨?_, ?_⟩, ⟨?_, ?_⟩, ⟨?_, ?_⟩⟩ <;> cases controlled <;> decide +kernel

theorem replacesAnchors_heap : (heap false).ReplacesAnchors 3 1 [0] [0] := by
  obtain ⟨hd, hedges, hin, hout⟩ := facts_heap false
  refine (replacesAnchors_iff (heap false) 3 1 [0] [0] (sound_heap false) hd (by decide +kernel) (by decide +kernel) hedges hin
    hout).mpr ?_
  rw [if_neg (by decide)]
  exact ⟨by decide +kernel, by decide +kernel, ⟨by decide +kernel, by decide +kernel, by decide +kernel⟩, by decide +kernel,
    by decide +kernel, by decide +kernel⟩

/-- The old output still comes before the reader. -/
theorem replacesAnchors_false :
    ¬ ∀ (h : Heap) (newNode oldNode : NodeId) (inputsMap outputsMap : List Int), h.Sound → h.Directed → newNode < h.nodeCount →
      oldNode < h.nodeCount → h.NoDataEdges newNode → Heap.ValidMap (h.node oldNode).inDataAnchors inputsMap →
      Heap.ValidMap (h.node oldNode).outDataAnchors outputsMap → h.ReplacesAnchors newNode oldNode inputsMap outputsMap := by
  intro hall
  obtain ⟨hd, hedges, hin, hout⟩ := facts_heap true
  have hrep := hall (heap true) 3 1 [0] [0] (sound_heap true) hd (by decide +kernel) (by decide +kernel) hedges hin hout
  have hcond := NodeReplacementAux.replaceable_of_replaces (sound_heap true) hd (by decide +kernel) (by decide +kernel) hedges hin
    hout (by decide) hrep
  have hreader := hcond.takesOver.readers (13, 6) (by decide +kernel) 7 (by decide +kernel)
  exact absurd hreader.1 (by decide +kernel)

end NodeReplacementWitness

end Metadef
