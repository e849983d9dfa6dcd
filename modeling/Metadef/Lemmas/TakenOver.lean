import Metadef.Lemmas.MappedAnchors

/-!
# Links taken over

What the anchors of a new node take over from those of an old one: the outputs what the old outputs feed, then the inputs the
sources of the old inputs.
-/

namespace Metadef

open List Option

/-- The links of an input when new anchors took over those of old ones. -/
def Heap.takenOver (h : Heap) (ins outs : List (AnchorId × AnchorId)) (x : AnchorId) : List AnchorId :=
  (if x ∈ ins.map Prod.snd then (h.peers x).filter fun s => h.kind s ≠ .outData else (h.peers x).map (Heap.renameBy outs)) ++
    (ins.find? fun e => e.1 = x).elim [] fun e => ((h.peers e.2).filter fun s => h.kind s = .outData).map (Heap.renameBy outs)

/-- Pairs of anchors of a node without data links with anchors of another. -/
structure Heap.Paired (h : Heap) (ins outs : List (AnchorId × AnchorId)) : Prop where
  apartIns : MappedAnchorsAux.Apart ins
  apartOuts : MappedAnchorsAux.Apart outs
  inputs : ∀ e ∈ ins, h.Held e.1 ∧ h.kind e.1 = .inData ∧ h.kind e.2 = .inData
  outputs : ∀ e ∈ outs, h.Held e.1 ∧ h.kind e.1 = .outData ∧ h.kind e.2 = .outData
  noSource : ∀ e ∈ ins, ∀ s ∈ h.peers e.1, h.kind s ≠ .outData
  noReader : ∀ e ∈ outs, ∀ p ∈ h.peers e.1, h.kind p ≠ .inData

/-- The old outputs feed data inputs only, each of which has no other link, the old inputs have no second source, and the new inputs
that are to be fed are free. -/
structure Heap.TakesOver (h : Heap) (ins outs : List (AnchorId × AnchorId)) : Prop where
  readers : ∀ e ∈ outs, ∀ p ∈ h.peers e.2, h.kind p = .inData ∧ h.peers p = [e.2]
  oneSource : ∀ e ∈ ins, ∀ s ∈ (h.peers e.2).tail, h.kind s ≠ .outData
  free : ∀ e ∈ ins, (InDataAnchor.getPeerOutAnchor h e.2).isSome → h.peers e.1 = []

namespace TakenOverAux

open Cmd GraphUtils Heap LinkListsAux MappedAnchorsAux

variable {h t u : Heap} {ins outs : List (AnchorId × AnchorId)} {x s : AnchorId}

section Outputs

variable (hs : h.Sound) (hp : h.Paired ins outs) (ht : h.OutsReplaced t outs)

include hp in
theorem kind_renameBy (s : AnchorId) : h.kind (renameBy outs s) = h.kind s := by
  rcases renameBy_cases hp.apartOuts s with ⟨e, he, rfl, hr⟩ | ⟨-, hr⟩
  · rw [hr, (hp.outputs e he).2.1, (hp.outputs e he).2.2]
  · rw [hr]

include hs hp ht in
/-- An input is fed by what its sources were replaced by. -/
theorem peers_of_outsReplaced (hsingle : h.OutsSingle outs) (hx : h.kind x = .inData) : t.peers x = (h.peers x).map
    (renameBy outs) := by
  by_cases hfed : ∃ e ∈ outs, x ∈ OutDataAnchor.getPeerInDataAnchors h e.2
  · obtain ⟨e, he, hmem⟩ := hfed
    rw [ht.fed e he x hmem, hsingle e he x hmem, map_singleton, renameBy_of_mem hp.apartOuts he]
  · have hnot : ∀ e ∈ outs, x ∉ OutDataAnchor.getPeerInDataAnchors h e.2 := fun e he hmem => hfed ⟨e, he, hmem⟩
    have hkept : t.peers x = h.peers x := by
      refine ht.kept x fun e he => ⟨?_, ?_, hnot e he⟩
      · rintro rfl
        exact absurd (hx.symm.trans (hp.outputs e he).2.1) (by decide)
      · rintro rfl
        exact absurd (hx.symm.trans (hp.outputs e he).2.2) (by decide)
    rw [hkept, map_congr_left (g := id) fun s hmem => ?_, List.map_id]
    refine renameBy_of_not_mem fun hold => ?_
    obtain ⟨e, he, rfl⟩ := List.mem_map.mp hold
    exact hnot e he (mem_filter.mpr ⟨hs.symm.mem hmem, decide_eq_true hx⟩)

include hs hp ht in
theorem peers_of_outsReplaced_control (hx : h.kind x ≠ .inData) (hout : h.kind x ≠ .outData) : t.peers x = h.peers x := by
  refine ht.kept x fun e he => ⟨?_, ?_, fun hmem => hx (of_fed hs hmem).1⟩
  · rintro rfl
    exact hout (hp.outputs e he).2.1
  · rintro rfl
    exact hout (hp.outputs e he).2.2

include hs hp ht in
/-- The source of an input is what replaced it. -/
theorem source_of_outsReplaced (hsingle : h.OutsSingle outs) (hx : h.kind x = .inData) :
    InDataAnchor.getPeerOutAnchor t x = (InDataAnchor.getPeerOutAnchor h x).map (renameBy outs) := by
  unfold InDataAnchor.getPeerOutAnchor
  rw [peers_of_outsReplaced hs hp ht hsingle hx, show t.kind = h.kind from funext ht.same.kind]
  cases h.peers x with
  | nil => rfl
  | cons s l =>
    simp only [map_cons, kind_renameBy hp]
    by_cases hk : h.kind s = .outData
    · rw [if_pos hk, if_pos hk]
      rfl
    · rw [if_neg hk, if_neg hk]
      rfl

end Outputs

/-! ## Both -/

theorem outsSingle_of_takesOver (hc : TakesOver h ins outs) : h.OutsSingle outs := fun e he p hp =>
  (hc.readers e he p (mem_filter.mp hp).1).2

variable (hs : h.Sound) (hp : h.Paired ins outs)

include hs hp in
/-- What the new inputs that are to be fed are is not changed by replacing outputs. -/
theorem insFree_iff (ht : h.OutsReplaced t outs) (hsingle : h.OutsSingle outs) : t.InsFree ins ↔ h.InsFree ins := by
  refine forall₂_congr fun e he => ?_
  obtain ⟨-, hk₁, hk₂⟩ := hp.inputs e he
  rw [source_of_outsReplaced hs hp ht hsingle hk₂, isSome_map, peers_of_outsReplaced hs hp ht hsingle hk₁,
    map_eq_nil_iff]

/-- The data sources of an input that has one at most. -/
theorem filter_source (hone : ∀ s ∈ (h.peers x).tail, h.kind s ≠ .outData) :
    (h.peers x).filter (fun s => h.kind s = .outData) = (InDataAnchor.getPeerOutAnchor h x).toList ∧
      ((h.peers x).filter fun s => h.kind s ≠ .outData) =
        if (InDataAnchor.getPeerOutAnchor h x).isSome then (h.peers x).tail else h.peers x := by
  unfold InDataAnchor.getPeerOutAnchor
  cases hl : h.peers x with
  | nil => exact ⟨rfl, rfl⟩
  | cons s l =>
    rw [hl] at hone
    have hone : ∀ s ∈ l, h.kind s ≠ .outData := hone
    have hnone : l.filter (fun s => h.kind s = .outData) = [] := filter_eq_nil_iff.mpr fun s hs => by simpa using hone s hs
    have hall : l.filter (fun s => h.kind s ≠ .outData) = l := filter_eq_self.mpr fun s hs => by simpa using hone s hs
    by_cases hk : h.kind s = .outData
    · rw [filter_cons_of_pos (by simpa using hk), filter_cons_of_neg (by simpa using hk), hnone, hall]
      simp [hk]
    · rw [filter_cons_of_neg (by simpa using hk), filter_cons_of_pos (by simpa using hk), hnone, hall]
      simp [hk]

variable {l : List AnchorId} {e : AnchorId × AnchorId}

include hp in
/-- Only data outputs are replaced. -/
theorem map_renameBy_of_noData (hl : ∀ s ∈ l, h.kind s ≠ .outData) : l.map (renameBy outs) = l := by
  rw [map_congr_left (g := id) fun s hmem => ?_, List.map_id]
  refine renameBy_of_not_mem fun hold => ?_
  obtain ⟨e, he, rfl⟩ := List.mem_map.mp hold
  exact hl e.2 hmem (hp.outputs e he).2.2

include hp in
/-- A new input is found with its old one. -/
theorem find_new (he : e ∈ ins) : ins.find? (fun d => d.1 = e.1) = some e := by
  cases hf : ins.find? fun d => d.1 = e.1 with
  | none => exact absurd (find?_eq_none.mp hf e he) (by simp)
  | some d =>
    have hd := find?_some hf
    simp only [decide_eq_true_eq] at hd
    exact congrArg some (inj_on_of_nodup_map hp.apartIns.news (mem_of_find?_eq_some hf) he hd)

include hp in

include hp in
/-- No old input is a new one. -/
theorem find_old (he : e ∈ ins) : ins.find? (fun d => d.1 = e.2) = none :=
  find?_eq_none.mpr fun d hd => by simpa using hp.apartIns.sides d hd e he

omit hp in
include hs in
/-- An input that no data output feeds but an old one that feeds data inputs only keeps its links. -/
theorem map_renameBy_of_control (hc : TakesOver h ins outs) (hx : h.kind x ≠ .inData) : (h.peers x).map (renameBy outs) =
    h.peers x := by
  rw [map_congr_left (g := id) fun s hmem => ?_, List.map_id]
  refine renameBy_of_not_mem fun hold => ?_
  obtain ⟨e, he, rfl⟩ := List.mem_map.mp hold
  exact hx (hc.readers e he x (hs.symm.mem hmem)).1

include hs hp in
/-- After the rounds over the outputs and the inputs, every input has the links that were taken over. -/
theorem peers_of_replaced (ht : h.OutsReplaced t outs) (hu : t.InsReplaced u ins) (hc : TakesOver h ins outs)
    (hx : (h.kind x).isIn = true) : u.peers x = h.takenOver ins outs x := by
  have hkind : t.kind = h.kind := funext ht.same.kind
  have hxo : h.kind x ≠ .outData := by
    intro he
    rw [he] at hx
    cases hx
  have hsingle := (outsSingle_of_takesOver hc)
  by_cases hdata : h.kind x = .inData
  · have hmoved := peers_of_outsReplaced hs hp ht hsingle hdata
    have hsource := source_of_outsReplaced hs hp ht hsingle hdata
    by_cases hold : x ∈ ins.map Prod.snd
    · -- an old input keeps what is no data link
      obtain ⟨e, he, rfl⟩ := List.mem_map.mp hold
      have hone := hc.oneSource e he
      obtain ⟨hdatas, hothers⟩ := filter_source hone
      rw [Heap.takenOver, if_pos hold, find_old hp he, elim_none, append_nil, hu.olds e he, hsource, isSome_map,
        hmoved, hothers]
      cases hsome : InDataAnchor.getPeerOutAnchor h e.2 with
      | some s => rw [if_pos isSome_some, if_pos isSome_some, ← map_tail, map_renameBy_of_noData hp hone]
      | none =>
        rw [hsome] at hdatas
        refine (if_neg Bool.false_ne_true).trans ((map_renameBy_of_noData hp fun s hs => ?_).trans (if_neg Bool.false_ne_true).symm)
        simpa using filter_eq_nil_iff.mp hdatas s hs
    · by_cases hnew : ∃ e ∈ ins, e.1 = x
      · -- a new input takes over the data link of its old one
        obtain ⟨e, he, rfl⟩ := hnew
        have hk₂ := (hp.inputs e he).2.2
        rw [Heap.takenOver, if_neg hold, find_new hp he, elim_some, (filter_source (hc.oneSource e he)).1, hu.news e he,
          source_of_outsReplaced hs hp ht hsingle hk₂, hmoved]
        cases hsome : InDataAnchor.getPeerOutAnchor h e.2 with
        | some s =>
          rw [hc.free e he (by rw [hsome]; rfl)]
          rfl
        | none => simp
      · have hnone : ins.find? (fun d => d.1 = x) = none := find?_eq_none.mpr fun d hd => by simpa using fun heq => hnew ⟨d, hd, heq⟩
        rw [Heap.takenOver, if_neg hold, hnone, elim_none, append_nil, ← hmoved]
        refine hu.kept x (fun e he => ⟨fun heq => hnew ⟨e, he, heq.symm⟩, fun heq => hold (List.mem_map.mpr ⟨e, he, heq.symm⟩)⟩) ?_
        rwa [hkind]
  · have hnot : ∀ e ∈ ins, x ≠ e.1 ∧ x ≠ e.2 := by
      intro e he
      obtain ⟨-, hk₁, hk₂⟩ := hp.inputs e he
      exact ⟨fun heq => hdata (heq ▸ hk₁), fun heq => hdata (heq ▸ hk₂)⟩
    have hnone : ins.find? (fun d => d.1 = x) = none := find?_eq_none.mpr fun d hd => by simpa using (hnot d hd).1.symm
    have hold : x ∉ ins.map Prod.snd := fun hmem => by
      obtain ⟨e, he, heq⟩ := List.mem_map.mp hmem
      exact (hnot e he).2 heq.symm
    rw [Heap.takenOver, if_neg hold, hnone, elim_none, append_nil, map_renameBy_of_control hs hc hdata,
      hu.kept x hnot (by rwa [hkind]), peers_of_outsReplaced_control hs hp ht hdata hxo]

/-! ## The order of readers -/

omit hs hp in
/-- Erasing an item that occurs once at most leaves the others. -/
theorem erase_of_count_le {a : AnchorId} (hl : l.count a ≤ 1) : l.erase a = l.filter (· ≠ a) := by
  have hnone : a ∉ l.erase a := fun hmem => by
    have hpos := count_pos_iff.mpr hmem
    rw [count_erase_self] at hpos
    omega
  have hself : (l.erase a).filter (· ≠ a) = l.erase a := filter_eq_self.mpr fun x hx => by
    have hxa : x ≠ a := fun e => hnone (e ▸ hx)
    simpa using hxa
  rw [← hself, MovedPeersAux.filter_erase_ne]

omit hs hp in
/-- Items replaced one after the other go to the end. -/
theorem foldl_erase : ∀ {pairs : List (AnchorId × AnchorId)} {l : List AnchorId}, Apart pairs → (∀ d ∈ pairs, l.count d.2 ≤ 1) →
    pairs.foldl (fun l d => l.erase d.2 ++ [d.1]) l = (l.filter (· ∉ pairs.map Prod.snd)) ++ pairs.map Prod.fst := by
  intro pairs
  induction pairs with
  | nil => simp
  | cons e pairs ih =>
    intro l hp hcount
    obtain ⟨hp', hne⟩ := hp.cons
    have hnew : e.1 ∉ pairs.map Prod.snd := fun hmem => by
      obtain ⟨d, hd, heq⟩ := List.mem_map.mp hmem
      exact (hne d hd).2.2.2 heq
    rw [foldl_cons, ih hp' fun d hd => ?_]
    · have hkept : (l.erase e.2 ++ [e.1]).filter (· ∉ pairs.map Prod.snd) = l.filter (· ∉ (e :: pairs).map Prod.snd) ++ [e.1] := by
        rw [filter_append, erase_of_count_le (hcount e mem_cons_self), List.filter_filter,
          show [e.1].filter (· ∉ pairs.map Prod.snd) = [e.1] from filter_eq_self.mpr (by simpa using hnew)]
        refine congrArg (· ++ _) (filter_congr fun p _ => ?_)
        rw [map_cons, ← Bool.decide_and, decide_eq_decide, mem_cons, not_or, and_comm]
      rw [hkept, append_assoc]
      rfl
    · have hd' := hcount d (mem_cons_of_mem e hd)
      have hone : ([e.1] : List AnchorId).count d.2 = 0 := count_eq_zero_of_not_mem (by simpa using (hne d hd).2.2.2)
      rw [count_append, hone]
      exact Nat.le_trans (erase_sublist.count_le _) hd'

include hs hp in
/-- The inputs an old output fed are fed by the new one, the replaced ones last. -/
theorem readers_of_replaced (ht : h.OutsReplaced t outs) (hu : t.InsReplaced u ins) (hc : TakesOver h ins outs)
    (he : e ∈ outs) : (u.peers e.1).filter (fun p => h.kind p = .inData) =
      ((h.peers e.2).filter (· ∉ ins.map Prod.snd) ++ (ins.map Prod.snd).filter (· ∈ h.peers e.2)).map (renameBy ins) := by
  have hkind : t.kind = h.kind := funext ht.same.kind
  obtain ⟨hheld, hk₁, hk₂⟩ := hp.outputs e he
  have hfed : OutDataAnchor.getPeerInDataAnchors h e.2 = h.peers e.2 :=
    filter_eq_self.mpr fun p hmem => decide_eq_true (hc.readers e he p hmem).1
  -- the new output feeds an old input when the old one did
  have hsource : ∀ d ∈ ins, InDataAnchor.getPeerOutAnchor t d.2 = some e.1 ↔ d.2 ∈ h.peers e.2 := by
    intro d hd
    have hkd := (hp.inputs d hd).2.2
    rw [source_of_outsReplaced hs hp ht (outsSingle_of_takesOver hc) hkd]
    constructor
    · intro hsome
      obtain ⟨s, hx, hr⟩ := map_eq_some_iff.mp hsome
      have hmem : d.2 ∈ h.peers s := hs.symm.mem ((of_getPeerOutAnchor hx).2 ▸ mem_cons_self)
      rcases renameBy_cases hp.apartOuts s with ⟨e', he', rfl, hr'⟩ | ⟨-, hr'⟩
      · have heq : e' = e := inj_on_of_nodup_map hp.apartOuts.news he' he (hr'.symm.trans hr)
        rw [← heq]
        exact hmem
      · rw [hr'] at hr
        rw [hr] at hmem
        exact absurd hkd (hp.noReader e he d.2 hmem)
    · intro hmem
      have hpeers := (hc.readers e he d.2 hmem).2
      have hx : InDataAnchor.getPeerOutAnchor h d.2 = some e.2 := by
        unfold InDataAnchor.getPeerOutAnchor
        rw [hpeers]
        exact if_pos hk₂
      rw [hx, map_some, renameBy_of_mem hp.apartOuts he]
  have hsel : Apart (ins.filter fun d => d.2 ∈ h.peers e.2) := hp.apartIns.sublist filter_sublist
  have hfold : u.peers e.1 = (h.peers e.1 ++ h.peers e.2).filter (· ∉ (ins.filter fun d => d.2 ∈ h.peers e.2).map Prod.snd) ++
      (ins.filter fun d => d.2 ∈ h.peers e.2).map Prod.fst := by
    rw [← foldl_erase hsel fun d hd => ?_, foldl_filter, hu.outs e.1 (by rw [hkind, hk₁]), ht.news e he, hfed]
    · refine foldl_ext _ _ _ fun l d hd => ?_
      rw [reseat, if_congr (hsource d hd) rfl rfl]
      simp
    · obtain ⟨hd, hmem⟩ := mem_filter.mp hd
      have hmem : d.2 ∈ h.peers e.2 := of_decide_eq_true hmem
      have hnew : d.2 ∉ h.peers e.1 := fun hmem => hp.noReader e he d.2 hmem (hp.inputs d hd).2.2
      have hone : (h.peers e.2).count d.2 = 1 := by
        rw [hs.symm e.2 d.2, (hc.readers e he d.2 hmem).2, count_singleton_self]
      rw [count_append, count_eq_zero_of_not_mem hnew, hone]
  have hold : ∀ p ∈ h.peers e.2, p ∈ (ins.filter fun d => d.2 ∈ h.peers e.2).map Prod.snd ↔ p ∈ ins.map Prod.snd := by
    intro p hmem
    simp only [List.mem_map, mem_filter, decide_eq_true_eq]
    constructor
    · rintro ⟨d, hd, heq⟩
      exact ⟨d, hd.1, heq⟩
    · rintro ⟨d, hd, heq⟩
      exact ⟨d, ⟨hd, heq ▸ hmem⟩, heq⟩
  rw [hfold, filter_append, map_append]
  congr 1
  · have hfirst : ((h.peers e.1).filter (· ∉ (ins.filter fun d => d.2 ∈ h.peers e.2).map Prod.snd)).filter
        (fun p => h.kind p = .inData) = [] :=
      filter_eq_nil_iff.mpr fun p hmem => by simpa using hp.noReader e he p (mem_filter.mp hmem).1
    have hsecond : ((h.peers e.2).filter (· ∉ (ins.filter fun d => d.2 ∈ h.peers e.2).map Prod.snd)).filter
        (fun p => h.kind p = .inData) = (h.peers e.2).filter (· ∉ ins.map Prod.snd) := by
      rw [filter_eq_self.mpr fun p hmem => decide_eq_true (hc.readers e he p (mem_filter.mp hmem).1).1]
      exact filter_congr fun p hmem => by rw [decide_eq_decide, hold p hmem]
    rw [filter_append, filter_append, hfirst, hsecond, nil_append, map_congr_left (g := id) fun p hmem =>
      ?_, List.map_id]
    exact renameBy_of_not_mem (of_decide_eq_true (mem_filter.mp hmem).2)
  · have hnews : ((ins.filter fun d => d.2 ∈ h.peers e.2).map Prod.fst).filter (fun p => h.kind p = .inData) =
        (ins.filter fun d => d.2 ∈ h.peers e.2).map Prod.fst := by
      refine filter_eq_self.mpr fun p hmem => ?_
      obtain ⟨d, hd, rfl⟩ := List.mem_map.mp hmem
      exact decide_eq_true (hp.inputs d (mem_filter.mp hd).1).2.1
    rw [hnews, List.filter_map, List.map_map]
    exact map_congr_left fun d hd => (renameBy_of_mem hp.apartIns (mem_filter.mp hd).1).symm

include hs hp in
/-- The readers are in order when those that are replaced came last, in the order of the map. -/
theorem readers_iff (ht : h.OutsReplaced t outs) (hu : t.InsReplaced u ins) (hc : TakesOver h ins outs) (he : e ∈ outs) :
    (u.peers e.1).filter (fun p => h.kind p = .inData) = ((h.peers e.2).filter fun p => h.kind p = .inData).map (renameBy ins) ↔
      h.peers e.2 = (h.peers e.2).filter (· ∉ ins.map Prod.snd) ++ (ins.map Prod.snd).filter (· ∈ h.peers e.2) := by
  have hall : ((h.peers e.2).filter fun p => h.kind p = .inData) = h.peers e.2 :=
    filter_eq_self.mpr fun p hmem => decide_eq_true (hc.readers e he p hmem).1
  have hback : ∀ l : List AnchorId, (∀ p ∈ l, p ∈ h.peers e.2 ∨ p ∈ ins.map Prod.snd) →
      (l.map (renameBy ins)).map (renameBy (ins.map Prod.swap)) = l := by
    intro l hl
    rw [List.map_map, map_congr_left (g := id) fun p hmem => ?_, List.map_id]
    have hswap : Apart (ins.map Prod.swap) := hp.apartIns.swap
    rw [Function.comp_apply]
    rcases renameBy_cases hp.apartIns p with ⟨d, hd, rfl, hr⟩ | ⟨hnot, hr⟩
    · rw [hr]
      exact renameBy_of_mem hswap (List.mem_map_of_mem (f := Prod.swap) hd)
    · rw [hr]
      refine renameBy_of_not_mem fun hmem' => ?_
      obtain ⟨d, hd, rfl⟩ : ∃ d ∈ ins, d.1 = p := by simpa using hmem'
      exact hp.noSource d hd e.2 (hs.symm.mem ((hl _ hmem).resolve_right hnot)) (hp.outputs e he).2.2
  rw [readers_of_replaced hs hp ht hu hc he, hall]
  constructor
  · intro heq
    have := congrArg (List.map (renameBy (ins.map Prod.swap))) heq
    rw [hback _ fun p hmem => ?_, hback _ fun p hmem => .inl hmem] at this
    · exact this.symm
    · rcases mem_append.mp hmem with hmem | hmem
      · exact .inl (mem_filter.mp hmem).1
      · exact .inr (mem_filter.mp hmem).1
  · intro heq
    rw [← heq]

end TakenOverAux

end Metadef
