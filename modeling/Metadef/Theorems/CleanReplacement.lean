import Metadef.Lemmas.ReplacedAnchors
import Metadef.Theorems.LinkSymmetry

/-!
# Replacing the data anchors of a node

`ReplaceNodeDataAnchors` moves the inputs the old outputs feed, then the sources of the old inputs, and checks each entry of its
maps when it gets there. It leaves the edges alone when it fails exactly where every entry goes through, or the first thing it
checks fails.
-/

namespace Metadef

open List Function

open GraphUtils

namespace Heap

/-- The outputs that feed single-linked inputs in the end, when outputs are replaced by others one entry of a map after the
other. -/
def landing (oldOuts : List AnchorId) (entries : List (AnchorId × Int)) (s : AnchorId) : AnchorId :=
  entries.foldl (fun s e => if 0 ≤ e.2 ∧ oldOuts[e.2.toNat]? = some s then e.1 else s) s

/-- An index is negative or that of an old output, and the data inputs it feeds have no other link. -/
def OutFits (h : Heap) (oldOuts : List AnchorId) (k : Int) : Prop :=
  0 ≤ k → ∃ o, oldOuts[k.toNat]? = some o ∧ ∀ p ∈ OutDataAnchor.getPeerInDataAnchors h o, (h.peers p).length = 1

def OutsFit (h : Heap) (oldOuts : List AnchorId) (entries : List (AnchorId × Int)) : Prop := ∀ e ∈ entries, h.OutFits oldOuts e.2

/-- The single-linked data inputs are fed by the outputs that fed them. -/
def OutsStay (h : Heap) (oldOuts : List AnchorId) (entries : List (AnchorId × Int)) : Prop :=
  ∀ p s, h.kind p = .inData → h.peers p = [s] → landing oldOuts entries s = s

/-- The classes of the anchors each input is linked to. -/
def linkKinds (h : Heap) (x : AnchorId) : List AnchorKind := if (h.kind x).isIn then (h.peers x).map h.kind else []

/-- Taking the entries in turn, each that is not negative is the index of an old input, and when the first link of that is from a
data output and is taken away, the new input has none. -/
def insFit (oldIns : List AnchorId) : List (AnchorId × Int) → (AnchorId → List AnchorKind) → Bool
  | [], _ => true
  | (newIn, k) :: entries, links =>
    if k < 0 then insFit oldIns entries links
    else match oldIns[k.toNat]? with
      | none => false
      | some oldIn => match links oldIn with
        | .outData :: rest =>
          let left := Function.update links oldIn rest
          (left newIn).isEmpty && insFit oldIns entries (Function.update left newIn [.outData])
        | _ => insFit oldIns entries links

variable {oldIns : List AnchorId} {newIn oldIn : AnchorId} {k : Int}
  {entries : List (AnchorId × Int)} {links : AnchorId → List AnchorKind}

theorem insFit_data {rest : List AnchorKind} (hk : ¬ k < 0) (ho : oldIns[k.toNat]? = some oldIn)
    (hl : links oldIn = .outData :: rest) : insFit oldIns ((newIn, k) :: entries) links =
      ((Function.update links oldIn rest newIn).isEmpty &&
        insFit oldIns entries (Function.update (Function.update links oldIn rest) newIn [.outData])) := by
  simp only [insFit, if_neg hk, ho, hl]

theorem insFit_other (hk : ¬ k < 0) (ho : oldIns[k.toNat]? = some oldIn)
    (hl : ∀ rest, links oldIn ≠ .outData :: rest) : insFit oldIns ((newIn, k) :: entries) links = insFit oldIns entries links := by
  simp only [insFit, if_neg hk, ho]

/-- Replacing the data anchors of a node returns, and leaves the edges as they were unless it succeeds. -/
def RejectsCleanly (h : Heap) (newNode oldNode : NodeId) (inputsMap outputsMap : List Int) : Prop :=
  ∃ ok h', replaceNodeDataAnchors (some newNode) (some oldNode) inputsMap outputsMap h = some (ok, h') ∧
    (ok = false → ∀ a, (h'.peers a).Perm (h.peers a))

/-- The map of outputs is too long, or its entries go through; then the map of inputs is too long where no input changed its
source, or its entries go through as well. -/
def MapsFit (h : Heap) (newNode oldNode : NodeId) (inputsMap outputsMap : List Int) : Prop :=
  (h.node newNode).outDataAnchors.length < outputsMap.length ∨
    (h.OutsFit (h.node oldNode).outDataAnchors ((h.node newNode).outDataAnchors.zip outputsMap) ∧
      if (h.node newNode).inDataAnchors.length < inputsMap.length then
        h.OutsStay (h.node oldNode).outDataAnchors ((h.node newNode).outDataAnchors.zip outputsMap)
      else insFit (h.node oldNode).inDataAnchors ((h.node newNode).inDataAnchors.zip inputsMap) h.linkKinds = true)

end Heap

namespace CleanReplacementAux

open Cmd Heap LinkListsAux MovedPeersAux ReplacedAnchorsAux

variable {h t t' : Heap} {oldOuts oldIns l : List AnchorId} {done : List (AnchorId × Int)} {old new : AnchorId}

/-! ## Outputs -/

/-- What the entries done left: each single-linked data input is fed by the output its source landed at. -/
structure OutsMoved (h t : Heap) (oldOuts : List AnchorId) (done : List (AnchorId × Int)) : Prop where
  sound : t.Sound
  directed : t.Directed
  same : h.SameButPeers t
  ends : t.linkEnds = h.linkEnds
  inputs : ∀ x, (h.kind x).isIn = true → t.peers x =
    if h.kind x = .inData ∧ (h.peers x).length = 1 then (h.peers x).map (landing oldOuts done) else h.peers x

theorem OutsMoved.refl (hs : h.Sound) (hd : h.Directed) : OutsMoved h h oldOuts [] :=
  ⟨hs, hd, SameButPeers.refl h, rfl, fun x _ => by
    have : landing oldOuts [] = id := rfl
    rw [this, map_id, ite_self]⟩

/-- A list of one item is that item's. -/
theorem mem_of_length_one {l : List AnchorId} {a : AnchorId} (hl : l.length = 1) (ha : a ∈ l) : l = [a] := by
  obtain ⟨b, rfl⟩ := length_eq_one_iff.mp hl
  rw [mem_singleton.mp ha]

theorem landing_append (oldOuts : List AnchorId) (done : List (AnchorId × Int)) (newOut : AnchorId) (k : Int) (s : AnchorId) :
    landing oldOuts (done ++ [(newOut, k)]) s =
      if 0 ≤ k ∧ oldOuts[k.toNat]? = some (landing oldOuts done s) then newOut else landing oldOuts done s :=
  foldl_append ..

section
variable (hold : ∀ o ∈ oldOuts, h.kind o = .outData) {newOut : AnchorId} (hnew : h.Held newOut) (hnk : h.kind newOut = .outData)
  (ht : OutsMoved h t oldOuts done) {k : Int}
include ht

/-- A negative entry moves nothing. -/
theorem OutsMoved.skip (hk : k < 0) : OutsMoved h t oldOuts (done ++ [(newOut, k)]) := by
  refine ⟨ht.sound, ht.directed, ht.same, ht.ends, fun x hx => ?_⟩
  have hland : landing oldOuts (done ++ [(newOut, k)]) = landing oldOuts done := by
    funext s
    rw [landing_append, if_neg fun e => absurd e.1 (Int.not_le.mpr hk)]
  rw [hland]
  exact ht.inputs x hx

/-- The inputs an output feeds now: single-linked ones whose source landed there, and others it fed before. -/
theorem peers_of_fed {o p : AnchorId} (hp : p ∈ OutDataAnchor.getPeerInDataAnchors t o) : h.kind p = .inData ∧ o ∈ t.peers p ∧
    ((h.peers p).length = 1 ∧ t.peers p = [o] ∨ (h.peers p).length ≠ 1 ∧ t.peers p = h.peers p) := by
  obtain ⟨hmem, hk⟩ := mem_filter.mp hp
  simp only [decide_eq_true_eq] at hk
  rw [ht.same.kind] at hk
  have hback := ht.sound.symm.mem hmem
  have hpeers := ht.inputs p (by rw [hk]; rfl)
  refine ⟨hk, hback, ?_⟩
  by_cases hlen : (h.peers p).length = 1
  · rw [if_pos ⟨hk, hlen⟩] at hpeers
    exact .inl ⟨hlen, mem_of_length_one (by rw [hpeers, length_map, hlen]) hback⟩
  · rw [if_neg fun e => hlen e.2] at hpeers
    exact .inr ⟨hlen, hpeers⟩

include hold hnew hnk

/-- The inputs of an old output were moved to a new one. -/
theorem OutsMoved.step {o : AnchorId} (hk : 0 ≤ k) (ho : oldOuts[k.toNat]? = some o)
    (hall : ∀ p ∈ OutDataAnchor.getPeerInDataAnchors t o, t.peers p = [o])
    (hfed : Refed t t' o newOut (OutDataAnchor.getPeerInDataAnchors t o)) : OutsMoved h t' oldOuts (done ++ [(newOut, k)]) := by
  have hko := hold o (mem_of_getElem? ho)
  refine ⟨hfed.moved.sound, directed_of_moved ht.directed hfed.moved (by rw [ht.same.kind, hnk]; rfl) fun p hp => ?_,
    SameButPeers.trans ht.same hfed.moved.same, hfed.ends.trans ht.ends, fun x hx => ?_⟩
  · rw [ht.same.kind, (peers_of_fed ht hp).1]
    rfl
  · have hxo : x ≠ o := by
      rintro rfl
      rw [hko] at hx
      cases hx
    have hxn : x ≠ newOut := by
      rintro rfl
      rw [hnk] at hx
      cases hx
    have hpeers := ht.inputs x hx
    by_cases hsingle : h.kind x = .inData ∧ (h.peers x).length = 1
    · obtain ⟨s, hs⟩ := length_eq_one_iff.mp hsingle.2
      rw [if_pos hsingle, hs, map_singleton] at hpeers
      rw [if_pos hsingle, hs, map_singleton, landing_append]
      by_cases hland : landing oldOuts done s = o
      · rw [if_pos ⟨hk, hland ▸ ho⟩]
        refine hfed.fed x (mem_filter.mpr ⟨ht.sound.symm.mem ?_, ?_⟩)
        · rw [hpeers, hland]
          exact mem_singleton_self o
        · rw [ht.same.kind]
          exact decide_eq_true hsingle.1
      · rw [if_neg fun e => hland (Option.some.inj (e.2.symm.trans ho)), hfed.kept x (fun hmem => hland ?_) hxo hxn]
        · exact hpeers
        · have := (peers_of_fed ht hmem).2.1
          rw [hpeers] at this
          exact (mem_singleton.mp this).symm
    · rw [if_neg hsingle] at hpeers ⊢
      by_cases hmem : x ∈ OutDataAnchor.getPeerInDataAnchors t o
      · obtain ⟨hkx, -, ⟨hlen, -⟩ | ⟨hlen, hsame⟩⟩ := peers_of_fed ht hmem
        · exact absurd ⟨hkx, hlen⟩ hsingle
        · refine absurd ?_ hlen
          rw [← hsame, hall x hmem]
          rfl
      · rw [hfed.kept x hmem hxo hxn]
        exact hpeers

variable (hs : h.Sound)
include hs

/-- A round over the outputs goes through exactly when its entry fits; otherwise it has no outcome or loses a link. -/
theorem replaceOut_spec :
    (h.OutFits oldOuts k ∧ ∃ t', replaceOut oldOuts newOut k t = some (true, t') ∧ OutsMoved h t' oldOuts (done ++ [(newOut, k)])) ∨
      (¬ h.OutFits oldOuts k ∧ ∀ ok t', replaceOut oldOuts newOut k t = some (ok, t') →
        ok = false ∧ t'.linkEnds + 2 = h.linkEnds ∧ h.SameButPeers t') := by
  by_cases hk : k < 0
  · refine .inl ⟨fun hk' => absurd hk (Int.not_lt.mpr hk'), t, ?_, ht.skip hk⟩
    simp only [replaceOut, if_pos hk, pure_apply]
  · have hk' := Int.not_lt.mp hk
    cases ho : oldOuts[k.toNat]? with
    | none =>
      refine .inr ⟨fun hfits => ?_, fun ok t' hr => ?_⟩
      · obtain ⟨o, ho', -⟩ := hfits hk'
        cases ho.symm.trans ho'
      · simp only [replaceOut, if_neg hk, ho] at hr
        cases hr
    | some o =>
      have hko := hold o (mem_of_getElem? ho)
      have hrun : replaceOut oldOuts newOut k t = (moveInputs newOut o (OutDataAnchor.getPeerInDataAnchors t o) t).map
          fun r => (r.1.isSome, r.2) := by
        simp only [replaceOut, if_neg hk, ho]
        rw [show replaceOutDataAnchor newOut o = (do
          let h ← get
          moveInputs newOut o (OutDataAnchor.getPeerInDataAnchors h o)) from rfl]
        show (moveInputs newOut o (OutDataAnchor.getPeerInDataAnchors t o) >>= fun r => pure r.isSome) t = _
        simp only [bind, StateT.bind]
        cases moveInputs newOut o (OutDataAnchor.getPeerInDataAnchors t o) t <;> rfl
      have hne : ∀ p ∈ OutDataAnchor.getPeerInDataAnchors t o, p ∈ t.peers o ∧ p ≠ o ∧ p ≠ newOut := by
        intro p hp
        have hkp := (peers_of_fed ht hp).1
        refine ⟨(mem_filter.mp hp).1, ?_, ?_⟩
        · rintro rfl
          exact absurd (hkp.symm.trans hko) (by decide)
        · rintro rfl
          exact absurd (hkp.symm.trans hnk) (by decide)
      have honce : ∀ p, t.peers p = [o] → (OutDataAnchor.getPeerInDataAnchors t o).count p ≤ 1 := by
        intro p hp
        refine Nat.le_trans (filter_sublist.count_le p) ?_
        rw [ht.sound.symm o p, hp, count_singleton_self]
      -- the inputs fed now are those the entry is about, or single-linked ones moved before
      have hfits : h.OutFits oldOuts k ↔ ∀ p ∈ OutDataAnchor.getPeerInDataAnchors t o, t.peers p = [o] := by
        constructor
        · intro hfits p hp
          obtain ⟨o', ho', hsingle⟩ := hfits hk'
          obtain rfl : o = o' := Option.some.inj (ho.symm.trans ho')
          obtain ⟨hkp, hmem, ⟨-, hpo⟩ | ⟨hlen, hsame⟩⟩ := peers_of_fed ht hp
          · exact hpo
          · refine absurd (hsingle p (mem_filter.mpr ⟨hs.symm.mem (hsame ▸ hmem), ?_⟩)) hlen
            exact decide_eq_true hkp
        · refine fun hall _ => ⟨o, ho, fun p hp => ?_⟩
          obtain ⟨hpo, hkp⟩ := mem_filter.mp hp
          by_contra hlen
          have hpeers := ht.inputs p (by rw [of_decide_eq_true hkp]; rfl)
          rw [if_neg fun e => hlen e.2] at hpeers
          have hmem : p ∈ OutDataAnchor.getPeerInDataAnchors t o := by
            refine mem_filter.mpr ⟨ht.sound.symm.mem ?_, by rw [ht.same.kind]; exact hkp⟩
            rw [hpeers]
            exact hs.symm.mem hpo
          refine hlen ?_
          rw [← hpeers, hall p hmem]
          rfl
      rcases moveInputs_spec ht.sound ((ht.same.held newOut).mpr hnew) honce hne with ⟨hall, pairs, t', hr, hfed⟩ |
        ⟨⟨p, hp, hmany⟩, t', hr, hends, hsame⟩
      · refine .inl ⟨hfits.mpr hall, t', by rw [hrun, hr]; rfl, ht.step hold hnew hnk hk' ho hall hfed⟩
      · refine .inr ⟨fun hf => hmany (hfits.mp hf p hp), fun ok t'' hr' => ?_⟩
        rw [hrun, hr] at hr'
        obtain ⟨rfl, rfl⟩ := of_return hr'
        exact ⟨rfl, hends.trans ht.ends, SameButPeers.trans ht.same hsame⟩

end

/-- The rounds over the outputs go through exactly when the entries fit; otherwise they have no outcome or lose a link. -/
theorem replaceOuts_spec (hs : h.Sound) (hold : ∀ o ∈ oldOuts, h.kind o = .outData) : ∀ {entries done : List (AnchorId × Int)}
    {t : Heap},
    (∀ e ∈ entries, h.Held e.1 ∧ h.kind e.1 = .outData) → OutsMoved h t oldOuts done →
    (h.OutsFit oldOuts entries ∧ ∃ t', Cmd.eachOk (fun e => replaceOut oldOuts e.1 e.2) entries t = some (true, t') ∧
        OutsMoved h t' oldOuts (done ++ entries)) ∨
      (¬ h.OutsFit oldOuts entries ∧ ∀ ok t', Cmd.eachOk (fun e => replaceOut oldOuts e.1 e.2) entries t = some (ok, t') →
        ok = false ∧ t'.linkEnds + 2 = h.linkEnds ∧ h.SameButPeers t') := by
  intro entries
  induction entries with
  | nil => exact fun {done t} _ ht => .inl ⟨fun _ he => absurd he not_mem_nil, t, rfl, by rwa [append_nil]⟩
  | cons e entries ih =>
    intro done t hnew ht
    obtain ⟨newOut, k⟩ := e
    obtain ⟨hheld, hk⟩ := hnew (newOut, k) mem_cons_self
    have hcons : h.OutsFit oldOuts ((newOut, k) :: entries) ↔ h.OutFits oldOuts k ∧ h.OutsFit oldOuts entries :=
      forall_mem_cons
    rw [hcons, Cmd.eachOk]
    rcases replaceOut_spec hold hheld hk ht (k := k) hs with ⟨hfits, m, hm, hmoved⟩ | ⟨hnot, hfail⟩
    · rw [bind_of_eq hm]
      rcases ih (fun e he => hnew e (mem_cons_of_mem _ he)) hmoved with ⟨hrest, t', hr, hmoved'⟩ | ⟨hrest, hfail⟩
      · exact .inl ⟨⟨hfits, hrest⟩, t', hr, by rwa [append_assoc] at hmoved'⟩
      · exact .inr ⟨fun hall => hrest hall.2, hfail⟩
    · refine .inr ⟨fun hall => hnot hall.1, fun ok t' hr => ?_⟩
      obtain ⟨ok', m, hm, hr⟩ := bind_eq_some.mp hr
      obtain ⟨rfl, hlost⟩ := hfail ok' m hm
      obtain ⟨rfl, rfl⟩ := of_return hr
      exact ⟨rfl, hlost⟩

/-! ## Inputs -/

section
variable {newIn oldIn s : AnchorId} {rest : List AnchorId} (hs : t.Sound) (hpeers : t.peers oldIn = s :: rest)
    (hks : t.kind s = .outData)
  (hko : t.kind oldIn = .inData) (hheld : t.Held newIn) (hkn : t.kind newIn = .inData)
include hs hpeers hks hko hheld hkn

/-- What a round over the inputs does once it has found a source. -/
theorem refill_cases : ∃ m, Anchor.unlink s (some oldIn) t = some (true, m) ∧ m.Sound ∧ t.SameButPeers m ∧
    m.linkEnds + 2 = t.linkEnds ∧
    ((m.peers newIn).isEmpty = (Function.update t.linkKinds oldIn (rest.map t.kind) newIn).isEmpty) ∧
    (m.peers newIn = [] → OutDataAnchor.linkTo s (some newIn) m = some (true, Anchor.linked m s newIn) ∧
      (Anchor.linked m s newIn).Sound ∧ t.SameButPeers (Anchor.linked m s newIn) ∧ (Anchor.linked m s newIn).linkEnds = t.linkEnds ∧
      (Anchor.linked m s newIn).linkKinds = Function.update (Function.update t.linkKinds oldIn (rest.map t.kind)) newIn
        [.outData]) := by
  have hmem : oldIn ∈ t.peers s := hs.symm.mem (hpeers ▸ mem_cons_self)
  have hne : ∀ {x}, t.kind x = .inData → x ≠ s := by
    rintro x hx rfl
    exact absurd (hx.symm.trans hks) (by decide)
  obtain ⟨m, hm, hsm, hsame, hpm⟩ := unlink_linked hs hmem (hne hko)
  have hends := linkEnds_unlink hs hmem (hne hko) hm
  have hold : m.peers oldIn = rest := by rw [hpm, if_pos rfl, hpeers, erase_cons_head]
  have hothers : ∀ x, x ≠ oldIn → x ≠ s → m.peers x = t.peers x := fun x ho hx => by rw [hpm, if_neg ho, if_neg hx]
  refine ⟨m, hm, hsm, hsame, hends, ?_, fun hfree => ⟨?_, ?_, ?_, ?_, ?_⟩⟩
  · by_cases hno : newIn = oldIn
    · rw [hno, hold, update_self, isEmpty_map]
    · rw [hothers newIn hno (hne hkn), update_of_ne hno, Heap.linkKinds, if_pos (by rw [hkn]; rfl), isEmpty_map]
  · simp [OutDataAnchor.linkTo, Anchor.link, hfree]
  · exact hsm.linked ((hsame.held s).mpr (hs.symm.held hs.peersHeld hmem)) ((hsame.held newIn).mpr hheld)
  · exact SameButPeers.trans hsame (SameButPeers.linked m s newIn)
  · rw [linkEnds_linked hsm ((hsame.held s).mpr (hs.symm.held hs.peersHeld hmem)) ((hsame.held newIn).mpr hheld), hends]
  · funext x
    have hsame' := SameButPeers.trans hsame (SameButPeers.linked m s newIn)
    have hkind : (Anchor.linked m s newIn).kind = t.kind := funext hsame'.kind
    rw [Heap.linkKinds, hkind]
    by_cases hxn : x = newIn
    · rw [hxn, update_self, if_pos (by rw [hkn]; rfl), linked_peers_snd (hne hkn).symm, hfree, nil_append,
        map_singleton, hks]
    · rw [update_of_ne hxn]
      by_cases hxs : x = s
      · rw [hxs, if_neg (by rw [hks]; decide), update_of_ne (hne hko).symm, Heap.linkKinds, if_neg (by rw [hks]; decide)]
      · rw [linked_peers_of_ne hxs hxn]
        by_cases hxo : x = oldIn
        · rw [hxo, hold, update_self, if_pos (by rw [hko]; rfl)]
        · rw [hothers x hxo hxs, update_of_ne hxo, Heap.linkKinds]

end

/-- The rounds over the inputs go through exactly when the entries fit; otherwise they have no outcome or lose a link. -/
theorem replaceIns_spec : ∀ {entries : List (AnchorId × Int)} {t : Heap}, t.Sound → (∀ o ∈ oldIns, t.kind o = .inData) →
    (∀ e ∈ entries, t.Held e.1 ∧ t.kind e.1 = .inData) →
    (insFit oldIns entries t.linkKinds = true ∧ ∃ t', Cmd.eachOk (fun e => replaceIn oldIns e.1 e.2) entries t = some (true, t')) ∨
      (insFit oldIns entries t.linkKinds = false ∧ ∀ ok t', Cmd.eachOk (fun e => replaceIn oldIns e.1 e.2) entries t = some
        (ok, t') →
        ok = false ∧ t'.linkEnds + 2 = t.linkEnds ∧ t.SameButPeers t') := by
  intro entries
  induction entries with
  | nil => exact fun {t} _ _ _ => .inl ⟨rfl, t, rfl⟩
  | cons e entries ih =>
    intro t hs hold hnew
    obtain ⟨newIn, k⟩ := e
    obtain ⟨hheld, hkn⟩ := hnew (newIn, k) mem_cons_self
    have hrest : ∀ e ∈ entries, t.Held e.1 ∧ t.kind e.1 = .inData := fun e he => hnew e (mem_cons_of_mem _ he)
    -- an entry that moves nothing leaves what the others find
    have hskip : ∀ (_ : replaceIn oldIns newIn k t = some (true, t))
        (_ : insFit oldIns ((newIn, k) :: entries) t.linkKinds = insFit oldIns entries t.linkKinds),
        (insFit oldIns ((newIn, k) :: entries) t.linkKinds = true ∧
          ∃ t', Cmd.eachOk (fun e => replaceIn oldIns e.1 e.2) ((newIn, k) :: entries) t = some (true, t')) ∨
        (insFit oldIns ((newIn, k) :: entries) t.linkKinds = false ∧ ∀ ok t',
          Cmd.eachOk (fun e => replaceIn oldIns e.1 e.2) ((newIn, k) :: entries) t = some (ok, t') →
            ok = false ∧ t'.linkEnds + 2 = t.linkEnds ∧ t.SameButPeers t') := by
      intro hr hfit
      rw [Cmd.eachOk, bind_of_eq hr, hfit]
      exact ih hs hold hrest
    by_cases hk : k < 0
    · exact hskip (by simp only [replaceIn, if_pos hk, pure_apply]) (by rw [insFit, if_pos hk])
    · cases ho : oldIns[k.toNat]? with
      | none =>
        refine .inr ⟨by rw [insFit, if_neg hk, ho], fun ok t' hr => ?_⟩
        rw [Cmd.eachOk] at hr
        obtain ⟨ok', m, hm, -⟩ := bind_eq_some.mp hr
        simp only [replaceIn, if_neg hk, ho] at hm
        cases hm
      | some oldIn =>
        have hko := hold oldIn (mem_of_getElem? ho)
        have hlinks : t.linkKinds oldIn = (t.peers oldIn).map t.kind := if_pos (by rw [hko]; rfl)
        cases hp : t.peers oldIn with
        | nil =>
          refine hskip ?_ ?_
          · simp only [replaceIn, if_neg hk, ho, get_bind_apply, InDataAnchor.getPeerOutAnchor, hp, pure_apply]
          · exact insFit_other hk ho fun rest he => by rw [hlinks, hp] at he; cases he
        | cons s rest =>
          by_cases hks : t.kind s = .outData
          · obtain ⟨m, hm, hsm, hsame, hends, hempty, hlinked⟩ := refill_cases hs hp hks hko hheld hkn
            have hfit : insFit oldIns ((newIn, k) :: entries) t.linkKinds = ((m.peers newIn).isEmpty &&
                insFit oldIns entries (Function.update (Function.update t.linkKinds oldIn (rest.map t.kind)) newIn
                  [.outData])) := by
              rw [insFit_data hk ho (by rw [hlinks, hp, map_cons, hks]), hempty]
            have hrun : replaceIn oldIns newIn k t = OutDataAnchor.linkTo s (some newIn) m := by
              simp only [replaceIn, if_neg hk, ho, get_bind_apply, InDataAnchor.getPeerOutAnchor, hp, hks, if_true]
              rw [bind_of_eq hm]
              rfl
            cases hfree : (m.peers newIn).isEmpty with
            | true =>
              obtain ⟨hlink, hs', hsame', hends', hkinds⟩ := hlinked (List.isEmpty_iff.mp hfree)
              have hrec := ih hs' (fun o ho => (hsame'.kind o).trans (hold o ho)) fun e he =>
                ⟨(hsame'.held e.1).mpr (hrest e he).1, (hsame'.kind e.1).trans (hrest e he).2⟩
              rw [hkinds] at hrec
              rw [hfit, hfree, Bool.true_and, Cmd.eachOk, bind_of_eq (hrun.trans hlink)]
              refine hrec.imp id (And.imp_right fun hfail ok t' hr => ?_)
              obtain ⟨hok, hlost, hsame''⟩ := hfail ok t' hr
              exact ⟨hok, hlost.trans hends', SameButPeers.trans hsame' hsame''⟩
            | false =>
              refine .inr ⟨by rw [hfit, hfree, Bool.false_and], fun ok t' hr => ?_⟩
              have hrefused : replaceIn oldIns newIn k t = some (false, m) := by
                have hlinked : m.peers newIn ≠ [] := fun e => by
                  rw [e] at hfree
                  cases hfree
                rw [hrun]
                simp [OutDataAnchor.linkTo, Anchor.link, hlinked]
              rw [Cmd.eachOk, bind_of_eq hrefused] at hr
              obtain ⟨rfl, rfl⟩ := of_return hr
              exact ⟨rfl, hends, hsame⟩
          · refine hskip ?_ ?_
            · simp only [replaceIn, if_neg hk, ho, get_bind_apply, InDataAnchor.getPeerOutAnchor, hp, hks, if_false, pure_apply]
            · exact insFit_other hk ho fun l he => by
                rw [hlinks, hp, map_cons, List.cons.injEq] at he
                exact hks he.1

/-! ## Both -/

/-- Sources land at data outputs. -/
theorem kind_landing (hold : ∀ o ∈ oldOuts, h.kind o = .outData) : ∀ {entries : List (AnchorId × Int)},
    (∀ e ∈ entries, h.kind e.1 = .outData) → ∀ s, h.kind (landing oldOuts entries s) = h.kind s := by
  intro entries
  induction entries with
  | nil => exact fun _ _ => rfl
  | cons e entries ih =>
    intro hnew s
    have hrest := ih fun e he => hnew e (mem_cons_of_mem _ he)
    rw [landing, foldl_cons]
    refine (hrest _).trans ?_
    split
    · rename_i he
      rw [hnew e mem_cons_self, hold s (mem_of_getElem? he.2)]
    · rfl

/-- Moving inputs between outputs leaves the classes of the links of inputs. -/
theorem OutsMoved.linkKinds (ht : OutsMoved h t oldOuts done) (hold : ∀ o ∈ oldOuts, h.kind o = .outData)
    (hnew : ∀ e ∈ done, h.kind e.1 = .outData) : t.linkKinds = h.linkKinds := by
  funext x
  have hkind : t.kind = h.kind := funext ht.same.kind
  rw [Heap.linkKinds, Heap.linkKinds, hkind]
  split
  · rename_i hx
    rw [ht.inputs x hx]
    split
    · rw [map_map]
      exact map_congr_left fun s _ => kind_landing hold hnew s
    · rfl
  · rfl

/-- Moving inputs between outputs leaves the edges exactly when each single-linked input keeps its source. -/
theorem OutsMoved.perm_iff (ht : OutsMoved h t oldOuts done) (hs : h.Sound) (hd : h.Directed) :
    (∀ a, (t.peers a).Perm (h.peers a)) ↔ h.OutsStay oldOuts done := by
  constructor
  · intro hperm p s hk hp
    have hpeers := ht.inputs p (by rw [hk]; rfl)
    rw [if_pos ⟨hk, by rw [hp]; rfl⟩, hp, map_singleton] at hpeers
    have := hperm p
    rw [hpeers, hp] at this
    exact singleton_perm_singleton.mp this
  · intro hstay
    have hins : ∀ x, (h.kind x).isIn = true → t.peers x = h.peers x := by
      intro x hx
      rw [ht.inputs x hx]
      split
      · rename_i hsingle
        obtain ⟨s, hp⟩ := length_eq_one_iff.mp hsingle.2
        rw [hp, map_singleton, hstay x s hsingle.1 hp]
      · rfl
    intro a
    cases hka : (h.kind a).isIn with
    | true => rw [hins a hka]
    | false =>
      refine perm_iff_count.mpr fun b => ?_
      cases hkb : (h.kind b).isIn with
      | true => rw [ht.sound.symm a b, hins b hkb, hs.symm b a]
      | false =>
        rw [count_eq_zero_of_not_mem (not_mem_peers_of_side hd (hkb.trans hka.symm)),
          count_eq_zero_of_not_mem (not_mem_peers_of_side ht.directed (by rw [ht.same.kind, ht.same.kind, hka, hkb]))]

/-- The anchors of a node of a class, paired with entries of a map. -/
theorem held_zip (hs : h.Sound) {n : NodeId} (hn : n < h.nodeCount) {k : AnchorKind} {m : List Int} :
    ∀ e ∈ (h.anchorsOf n k).zip m, h.Held e.1 ∧ h.kind e.1 = k := by
  intro e he
  have hmem := (of_mem_zip he).1
  exact ⟨hs.laid.held hn hmem, hs.laid.kind n hn k _ hmem⟩

end CleanReplacementAux

open CleanReplacementAux ReplacedAnchorsAux MovedPeersAux in
/-- Replacing the data anchors of a node leaves the edges when it does not succeed, exactly when the maps fit: the rounds go through,
or the length of a map stops it before an edge has changed. -/
theorem rejectsCleanly_iff (h : Heap) (newNode oldNode : NodeId) (inputsMap outputsMap : List Int) (hs : h.Sound) (hd : h.Directed)
    (hnew : newNode < h.nodeCount) (hold : oldNode < h.nodeCount) :
    h.RejectsCleanly newNode oldNode inputsMap outputsMap ↔ h.MapsFit newNode oldNode inputsMap outputsMap := by
  have hrun : replaceNodeDataAnchors (some newNode) (some oldNode) inputsMap outputsMap h = (do
      if !(← replaceOutDataAnchors (h.node newNode).outDataAnchors (h.node oldNode).outDataAnchors outputsMap) then return false
      replaceInDataAnchors (h.node newNode).inDataAnchors (h.node oldNode).inDataAnchors inputsMap : Cmd Heap Bool) h := rfl
  unfold Heap.RejectsCleanly Heap.MapsFit
  rw [hrun]
  by_cases hlong : (h.node newNode).outDataAnchors.length < outputsMap.length
  · refine iff_of_true ⟨false, h, ?_, fun _ _ => List.Perm.refl _⟩ (.inl hlong)
    simp only [replaceOutDataAnchors, if_pos hlong]
    rfl
  · rw [or_iff_right hlong]
    have houts : replaceOutDataAnchors (h.node newNode).outDataAnchors (h.node oldNode).outDataAnchors outputsMap =
        Cmd.eachOk (fun e => replaceOut (h.node oldNode).outDataAnchors e.1 e.2)
          ((h.node newNode).outDataAnchors.zip outputsMap) := by
      rw [replaceOutDataAnchors, if_neg hlong]
    have hkout : ∀ o ∈ (h.node oldNode).outDataAnchors, h.kind o = .outData := hs.laid.kind oldNode hold .outData
    have hkin : ∀ o ∈ (h.node oldNode).inDataAnchors, h.kind o = .inData := hs.laid.kind oldNode hold .inData
    have hzip : ∀ e ∈ (h.node newNode).outDataAnchors.zip outputsMap, h.Held e.1 ∧ h.kind e.1 = .outData :=
      held_zip hs hnew (k := .outData)
    rw [houts]
    rcases replaceOuts_spec hs hkout hzip (OutsMoved.refl hs hd) with ⟨hfit, t, ht, hmoved⟩ | ⟨hnot, hfail⟩
    · rw [nil_append] at hmoved
      rw [and_iff_right hfit, Cmd.bind_of_eq ht]
      show (∃ ok h', replaceInDataAnchors (h.node newNode).inDataAnchors (h.node oldNode).inDataAnchors inputsMap t = some
        (ok, h') ∧ _) ↔ _
      unfold replaceInDataAnchors
      by_cases hlong' : (h.node newNode).inDataAnchors.length < inputsMap.length
      · simp only [if_pos hlong', Cmd.pure_apply, Option.some.injEq, Prod.mk.injEq]
        rw [← hmoved.perm_iff hs hd]
        constructor
        · rintro ⟨ok, h', ⟨rfl, rfl⟩, hclean⟩
          exact hclean rfl
        · exact fun hperm => ⟨false, t, ⟨rfl, rfl⟩, fun _ => hperm⟩
      · simp only [if_neg hlong']
        have hzip' : ∀ e ∈ (h.node newNode).inDataAnchors.zip inputsMap, t.Held e.1 ∧ t.kind e.1 = .inData := fun e he =>
          have ⟨hheld, hk⟩ := held_zip hs hnew (k := .inData) e he
          ⟨(hmoved.same.held e.1).mpr hheld, (hmoved.same.kind e.1).trans hk⟩
        rw [← hmoved.linkKinds hkout fun e he => (hzip e he).2]
        rcases replaceIns_spec hmoved.sound (fun o ho => (hmoved.same.kind o).trans (hkin o ho)) hzip' with ⟨hins, t', ht'⟩ |
          ⟨hins, hfail⟩
        · exact iff_of_true ⟨true, t', ht', fun e => absurd e (by decide)⟩ hins
        · refine iff_of_false ?_ (by simp [hins])
          rintro ⟨ok, h', hr, hclean⟩
          obtain ⟨hok, hends, hsame⟩ := hfail ok h' hr
          have := linkEnds_of_perm (hsame.anchorCount.trans hmoved.same.anchorCount) (hclean hok)
          have := hmoved.ends
          omega
    · refine iff_of_false ?_ fun hf => hnot hf.1
      rintro ⟨ok, h', hr, hclean⟩
      obtain ⟨ok', m, hm, hr⟩ := Cmd.bind_eq_some.mp hr
      obtain ⟨rfl, hends, hsame⟩ := hfail ok' m hm
      obtain ⟨rfl, rfl⟩ : false = ok ∧ m = h' := by simpa using hr
      have := linkEnds_of_perm hsame.anchorCount (hclean rfl)
      omega

namespace CleanReplacementWitness

/-- A node between a source and a reader, and a node to take its place. Control anchors come first. -/
def replaceable : List LinkCall :=
  [.newOp { opDef := { name := "a", type := "Data" }, outputsDesc := [{}] }, .newNode 0,
    .newOp { opDef := { name := "n", type := "Relu" }, inputsDesc := [{}], outputsDesc := [{}] }, .newNode 1,
    .newOp { opDef := { name := "b", type := "Relu" }, inputsDesc := [{}] }, .newNode 2,
    .newOp { opDef := { name := "m", type := "Relu6" }, inputsDesc := [{}], outputsDesc := [{}] }, .newNode 3,
    .addDataEdge (some 2) (some 5), .addDataEdge (some 6) (some 9)]

def chain : Heap := (LinkCall.runAll replaceable).getD .empty

theorem sound_chain : chain.Sound := sound_runAll replaceable chain (by decide +kernel) rfl

theorem directed_chain : chain.Directed := sound_chain.forall_peers (by decide +kernel)

theorem rejectsCleanly_chain : chain.RejectsCleanly 3 1 [0] [0] := by
  refine (rejectsCleanly_iff chain 3 1 [0] [0] sound_chain directed_chain (by decide +kernel) (by decide +kernel)).mpr
    (.inr ⟨?_, ?_⟩)
  · have hzip : (chain.node 3).outDataAnchors.zip ([0] : List Int) = [(13, 0)] := by decide +kernel
    intro e he _
    rw [hzip, mem_singleton] at he
    subst he
    exact ⟨6, by decide +kernel, by decide +kernel⟩
  · rw [if_neg (by decide +kernel)]
    decide +kernel

/-- The reader is fed by the new node before the map of inputs is found too long. -/
theorem rejectsCleanly_false :
    ¬ ∀ (h : Heap) (newNode oldNode : NodeId) (inputsMap outputsMap : List Int), h.Sound → h.Directed → newNode < h.nodeCount →
      oldNode < h.nodeCount → h.RejectsCleanly newNode oldNode inputsMap outputsMap := by
  intro hall
  obtain ⟨ok, h', hr, hclean⟩ := hall chain 3 1 [0, 0] [0] sound_chain directed_chain (by decide +kernel) (by decide +kernel)
  have hfailed : (replaceNodeDataAnchors (some 3) (some 1) [0, 0] [0] chain).all (fun r => !r.1 && r.2.peers 9 == [13]) = true := by
    decide +kernel
  rw [hr] at hfailed
  simp only [Option.all_some, Bool.and_eq_true, Bool.not_eq_true', beq_iff_eq] at hfailed
  have hperm := hclean hfailed.1 9
  rw [hfailed.2, show chain.peers 9 = [6] by decide +kernel] at hperm
  exact absurd (singleton_perm_singleton.mp hperm) (by decide)

end CleanReplacementWitness

end Metadef
