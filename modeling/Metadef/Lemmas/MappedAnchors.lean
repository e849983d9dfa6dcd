import Metadef.Lemmas.ReplacedAnchors

/-!
# Anchors replaced by a map

A map of a valid shape pairs anchors of a new node with anchors of an old one. The rounds over the pairs do not get in each
other's way, so what they leave is said in terms of the heap before them.
-/

namespace Metadef

open List

namespace Heap

/-- The anchors of a new node that a map pairs with anchors of an old one. -/
def mappedPairs (news olds : List AnchorId) (anchorsMap : List Int) : List (AnchorId × AnchorId) :=
  (news.zip anchorsMap).filterMap fun e => if e.2 < 0 then none else olds[e.2.toNat]?.map fun o => (e.1, o)

/-- The anchor that takes the place of another, or the anchor itself. -/
def renameBy (pairs : List (AnchorId × AnchorId)) (a : AnchorId) : AnchorId := ((pairs.find? fun e => e.2 = a).map Prod.fst).getD a

/-- The entries of a map are negative or indices, and no index is repeated. -/
structure ValidMap (olds : List AnchorId) (anchorsMap : List Int) : Prop where
  inside : ∀ k ∈ anchorsMap, k < olds.length
  once : (anchorsMap.filter (0 ≤ ·)).Nodup

/-- The inputs that outputs of a list of pairs feed have no other link. -/
def OutsSingle (t : Heap) (pairs : List (AnchorId × AnchorId)) : Prop :=
  ∀ e ∈ pairs, ∀ p ∈ OutDataAnchor.getPeerInDataAnchors t e.2, t.peers p = [e.2]

/-- The new inputs whose old ones have a source are free. -/
def InsFree (t : Heap) (pairs : List (AnchorId × AnchorId)) : Prop :=
  ∀ e ∈ pairs, (InDataAnchor.getPeerOutAnchor t e.2).isSome → t.peers e.1 = []

/-- What outputs feed moved to others. -/
structure OutsReplaced (t t' : Heap) (pairs : List (AnchorId × AnchorId)) : Prop where
  sound : t'.Sound
  same : t.SameButPeers t'
  news : ∀ e ∈ pairs, t'.peers e.1 = t.peers e.1 ++ OutDataAnchor.getPeerInDataAnchors t e.2
  olds : ∀ e ∈ pairs, t'.peers e.2 = (t.peers e.2).filter fun p => t.kind p ≠ .inData
  fed : ∀ e ∈ pairs, ∀ p ∈ OutDataAnchor.getPeerInDataAnchors t e.2, t'.peers p = [e.1]
  kept : ∀ x, (∀ e ∈ pairs, x ≠ e.1 ∧ x ≠ e.2 ∧ x ∉ OutDataAnchor.getPeerInDataAnchors t e.2) → t'.peers x = t.peers x

/-- What an output feeds after an input it feeds was replaced. -/
def reseat (t : Heap) (s : AnchorId) (l : List AnchorId) (e : AnchorId × AnchorId) : List AnchorId :=
  if InDataAnchor.getPeerOutAnchor t e.2 = some s then l.erase e.2 ++ [e.1] else l

/-- The sources of inputs feed others. -/
structure InsReplaced (t t' : Heap) (pairs : List (AnchorId × AnchorId)) : Prop where
  sound : t'.Sound
  same : t.SameButPeers t'
  news : ∀ e ∈ pairs, t'.peers e.1 = (InDataAnchor.getPeerOutAnchor t e.2).elim (t.peers e.1) fun s => [s]
  olds : ∀ e ∈ pairs, t'.peers e.2 = if (InDataAnchor.getPeerOutAnchor t e.2).isSome then (t.peers e.2).tail else t.peers e.2
  outs : ∀ s, t.kind s = .outData → t'.peers s = pairs.foldl (t.reseat s) (t.peers s)
  kept : ∀ x, (∀ e ∈ pairs, x ≠ e.1 ∧ x ≠ e.2) → t.kind x ≠ .outData → t'.peers x = t.peers x

end Heap

namespace MappedAnchorsAux

open Cmd GraphUtils Heap LinkListsAux MovedPeersAux ReplacedAnchorsAux

variable {h t t' m : Heap} {pairs : List (AnchorId × AnchorId)} {news olds l : List AnchorId} {a o : AnchorId}
    {anchorsMap : List Int}

/-! ## Pairs -/

/-- Rounds over the entries of a map are rounds over its pairs. -/
theorem eachOk_mapped {f : AnchorId × Int → Cmd Heap Bool} {g : AnchorId × AnchorId → Cmd Heap Bool}
    (hskip : ∀ a k, k < 0 → f (a, k) = pure true) (hpair : ∀ a k o, 0 ≤ k → olds[k.toNat]? = some o → f (a, k) = g (a, o)) :
    ∀ {news : List AnchorId} {anchorsMap : List Int}, (∀ k ∈ anchorsMap, k < olds.length) →
      Cmd.eachOk f (news.zip anchorsMap) = Cmd.eachOk g (mappedPairs news olds anchorsMap) := by
  intro news
  induction news with
  | nil => exact fun {_} _ => rfl
  | cons a news ih =>
    intro anchorsMap hvalid
    cases anchorsMap with
    | nil => rfl
    | cons k rest =>
      have hrest := ih fun k hk => hvalid k (mem_cons_of_mem _ hk)
      unfold mappedPairs at hrest ⊢
      rw [zip_cons_cons, Cmd.eachOk, hrest]
      by_cases hk : k < 0
      · rw [filterMap_cons_none (by simp [hk]), hskip a k hk]
        rfl
      · have hlt := hvalid k mem_cons_self
        have hin : k.toNat < olds.length := by omega
        obtain ⟨o, ho⟩ : ∃ o, olds[k.toNat]? = some o := ⟨_, getElem?_eq_getElem hin⟩
        rw [filterMap_cons_some (b := (a, o)) (by simp [hk, ho]), Cmd.eachOk, hpair a k o (by omega) ho]

/-- Pairs whose anchors are all different. -/
structure Apart (pairs : List (AnchorId × AnchorId)) : Prop where
  news : (pairs.map Prod.fst).Nodup
  olds : (pairs.map Prod.snd).Nodup
  sides : ∀ e ∈ pairs, ∀ d ∈ pairs, e.1 ≠ d.2

theorem Apart.sublist {l : List (AnchorId × AnchorId)} (hp : Apart pairs) (hl : l.Sublist pairs) : Apart l :=
  ⟨hp.news.sublist (hl.map _), hp.olds.sublist (hl.map _), fun e he d hd => hp.sides e (hl.subset he) d (hl.subset hd)⟩

theorem Apart.swap (hp : Apart pairs) : Apart (pairs.map Prod.swap) := by
  refine ⟨by simpa [Function.comp_def] using hp.olds, by simpa [Function.comp_def] using hp.news, fun e he d hd => ?_⟩
  obtain ⟨e', he', rfl⟩ := List.mem_map.mp he
  obtain ⟨d', hd', rfl⟩ := List.mem_map.mp hd
  exact (hp.sides d' hd' e' he').symm

variable {e : AnchorId × AnchorId} {x : AnchorId}

theorem Apart.cons (hp : Apart (e :: pairs)) : Apart pairs ∧ ∀ d ∈ pairs, d.1 ≠ e.1 ∧ d.2 ≠ e.2 ∧ d.1 ≠ e.2 ∧ d.2 ≠ e.1 := by
  obtain ⟨hnews, holds, hsides⟩ := hp
  rw [map_cons, nodup_cons] at hnews holds
  have hmem : ∀ d ∈ pairs, d ∈ e :: pairs := fun d hd => mem_cons_of_mem e hd
  refine ⟨⟨hnews.2, holds.2, fun d hd d' hd' => hsides d (hmem d hd) d' (hmem d' hd')⟩, fun d hd => ⟨?_, ?_, ?_, ?_⟩⟩
  · exact fun he => hnews.1 (he ▸ mem_map_of_mem hd)
  · exact fun he => holds.1 (he ▸ mem_map_of_mem hd)
  · exact hsides d (hmem d hd) e mem_cons_self
  · exact fun he => hsides e mem_cons_self d (hmem d hd) he.symm

theorem of_mem_mappedPairs (he : e ∈ mappedPairs news olds anchorsMap) : e.1 ∈ news ∧ e.2 ∈ olds := by
  obtain ⟨⟨a, k⟩, hd, he⟩ := mem_filterMap.mp he
  by_cases hk : k < 0
  · simp [hk] at he
  · obtain ⟨o, ho, rfl⟩ : ∃ o, olds[k.toNat]? = some o ∧ (a, o) = e := by simpa [hk] using he
    exact ⟨(of_mem_zip hd).1, mem_of_getElem? ho⟩

theorem mappedPairs_cons (a : AnchorId) (k : Int) (news olds : List AnchorId) (rest : List Int) :
    mappedPairs (a :: news) olds (k :: rest) =
      ((if 0 ≤ k then olds[k.toNat]? else none).toList.map fun o => (a, o)) ++ mappedPairs news olds rest := by
  unfold mappedPairs
  rw [zip_cons_cons, filterMap_cons]
  by_cases hk : k < 0
  · simp [hk, Int.not_le.mpr hk]
  · cases olds[k.toNat]? <;> simp [hk, Int.not_lt.mp hk]

/-- The new anchors are in order. -/
theorem mappedPairs_fst_sublist : ∀ {news : List AnchorId} {anchorsMap : List Int},
    ((mappedPairs news olds anchorsMap).map Prod.fst).Sublist news := by
  intro news
  induction news with
  | nil => exact fun {_} => List.Sublist.refl _
  | cons a news ih =>
    intro anchorsMap
    cases anchorsMap with
    | nil => exact nil_sublist _
    | cons k rest =>
      rw [mappedPairs_cons]
      cases (if 0 ≤ k then olds[k.toNat]? else none) with
      | none => exact (@ih rest).cons a
      | some o => exact (@ih rest).cons_cons a

/-- No old anchor occurs twice. -/
theorem mappedPairs_snd_nodup (holds : olds.Nodup) : ∀ {news : List AnchorId} {anchorsMap : List Int},
    (anchorsMap.filter (0 ≤ ·)).Nodup → ((mappedPairs news olds anchorsMap).map Prod.snd).Nodup := by
  have hsub : ∀ (news : List AnchorId) (anchorsMap : List Int), ((mappedPairs news olds anchorsMap).map Prod.snd).Sublist
      ((anchorsMap.filter (0 ≤ ·)).filterMap fun k => if 0 ≤ k then olds[k.toNat]? else none) := by
    intro news
    induction news with
    | nil => exact fun _ => nil_sublist _
    | cons a news ih =>
      intro anchorsMap
      cases anchorsMap with
      | nil => exact nil_sublist _
      | cons k rest =>
        rw [mappedPairs_cons]
        by_cases hk : 0 ≤ k
        · rw [filter_cons_of_pos (by simpa using hk), filterMap_cons]
          cases ho : (if 0 ≤ k then olds[k.toNat]? else none) with
          | none => exact ih rest
          | some o => exact (ih rest).cons_cons o
        · rw [filter_cons_of_neg (by simpa using hk), if_neg hk]
          exact ih rest
  intro news anchorsMap honce
  refine (honce.filterMap fun k k' o ho ho' => ?_).sublist (hsub news anchorsMap)
  by_cases hk : 0 ≤ k <;> by_cases hk' : 0 ≤ k'
  · rw [if_pos hk] at ho
    rw [if_pos hk'] at ho'
    obtain ⟨hlt, h₁⟩ := List.getElem?_eq_some_iff.mp ho
    obtain ⟨hlt', h₂⟩ := List.getElem?_eq_some_iff.mp ho'
    have := (holds.getElem_inj_iff).mp (h₁.trans h₂.symm)
    omega
  · simp [hk'] at ho'
  · simp [hk] at ho
  · simp [hk] at ho

/-- The pairs of a valid map between different anchors are apart. -/
theorem apart_mappedPairs (hnews : news.Nodup) (holds : olds.Nodup) (hdisjoint : ∀ a ∈ news, a ∉ olds)
    (hvalid : ValidMap olds anchorsMap) :
    Apart (mappedPairs news olds anchorsMap) :=
  ⟨hnews.sublist mappedPairs_fst_sublist, mappedPairs_snd_nodup holds hvalid.once,
    fun _ he _ hd heq => hdisjoint _ (of_mem_mappedPairs he).1 (heq ▸ (of_mem_mappedPairs hd).2)⟩

theorem renameBy_of_mem (hp : Apart pairs) (he : e ∈ pairs) : renameBy pairs e.2 = e.1 := by
  unfold renameBy
  cases hf : pairs.find? fun d => d.2 = e.2 with
  | none => exact absurd (find?_eq_none.mp hf e he) (by simp)
  | some d =>
    have hd := find?_some hf
    have hmem := mem_of_find?_eq_some hf
    simp only [decide_eq_true_eq] at hd
    rw [inj_on_of_nodup_map hp.olds hmem he hd]
    rfl

theorem renameBy_of_not_mem (ha : a ∉ pairs.map Prod.snd) : renameBy pairs a = a := by
  unfold renameBy
  rw [find?_eq_none.mpr fun d hd => ?_]
  · rfl
  · exact fun he => ha (List.mem_map.mpr ⟨d, hd, of_decide_eq_true he⟩)

/-- An anchor is renamed to a new one or stays. -/
theorem renameBy_cases (hp : Apart pairs) (a : AnchorId) :
    (∃ e ∈ pairs, e.2 = a ∧ renameBy pairs a = e.1) ∨ (a ∉ pairs.map Prod.snd ∧ renameBy pairs a = a) := by
  by_cases ha : a ∈ pairs.map Prod.snd
  · obtain ⟨e, he, rfl⟩ := List.mem_map.mp ha
    exact .inl ⟨e, he, rfl, renameBy_of_mem hp he⟩
  · exact .inr ⟨ha, renameBy_of_not_mem ha⟩

/-! ## Outputs -/

/-- The round over a pair of outputs. -/
def replaceOutPair (e : AnchorId × AnchorId) : Cmd Heap Bool := do
  return (← replaceOutDataAnchor e.1 e.2).isSome

theorem replaceOutPair_apply (e : AnchorId × AnchorId) (t : Heap) : replaceOutPair e t =
    (moveInputs e.1 e.2 (OutDataAnchor.getPeerInDataAnchors t e.2) t).map fun r => (r.1.isSome, r.2) := by
  show (moveInputs e.1 e.2 (OutDataAnchor.getPeerInDataAnchors t e.2) >>= fun r => pure r.isSome) t = _
  simp only [bind, StateT.bind]
  cases moveInputs e.1 e.2 (OutDataAnchor.getPeerInDataAnchors t e.2) t <;> rfl

/-- A data input an output feeds is fed by it. -/
theorem of_fed (hs : t.Sound) {p : AnchorId} (hp : p ∈ OutDataAnchor.getPeerInDataAnchors t o) :
    t.kind p = .inData ∧ p ∈ t.peers o ∧ o ∈ t.peers p := by
  obtain ⟨hmem, hk⟩ := mem_filter.mp hp
  exact ⟨of_decide_eq_true hk, hmem, hs.symm.mem hmem⟩

/-- A pair of outputs is replaced when the inputs fed have no other link. -/
theorem replaceOutPair_spec (hs : t.Sound) (hheld : t.Held e.1) (hnew : t.kind e.1 = .outData) (hold : t.kind e.2 = .outData) :
    ((∀ p ∈ OutDataAnchor.getPeerInDataAnchors t e.2, t.peers p = [e.2]) ∧ ∃ m, replaceOutPair e t = some (true, m) ∧
        Refed t m e.2 e.1 (OutDataAnchor.getPeerInDataAnchors t e.2)) ∨
      ((∃ p ∈ OutDataAnchor.getPeerInDataAnchors t e.2, t.peers p ≠ [e.2]) ∧ ∃ m, replaceOutPair e t = some (false, m)) := by
  have hne : ∀ p ∈ OutDataAnchor.getPeerInDataAnchors t e.2, p ∈ t.peers e.2 ∧ p ≠ e.2 ∧ p ≠ e.1 := by
    intro p hp
    obtain ⟨hk, hmem, -⟩ := of_fed hs hp
    refine ⟨hmem, ?_, ?_⟩
    · rintro rfl
      exact absurd (hk.symm.trans hold) (by decide)
    · rintro rfl
      exact absurd (hk.symm.trans hnew) (by decide)
  have honce : ∀ p, t.peers p = [e.2] → (OutDataAnchor.getPeerInDataAnchors t e.2).count p ≤ 1 := by
    intro p hp
    refine Nat.le_trans (filter_sublist.count_le p) ?_
    rw [hs.symm e.2 p, hp, count_singleton_self]
  rcases moveInputs_spec hs hheld honce hne with ⟨hall, pairs, m, hr, hfed⟩ | ⟨hmany, m, hr, -, -⟩
  · exact .inl ⟨hall, m, by rw [replaceOutPair_apply, hr]; rfl, hfed⟩
  · exact .inr ⟨hmany, m, by rw [replaceOutPair_apply, hr]; rfl⟩

/-- The other outputs are fed as before when a pair of outputs was replaced. -/
theorem peersIn_of_refed (hs : t.Sound) {d : AnchorId × AnchorId}
    (hm : Refed t m e.2 e.1 (OutDataAnchor.getPeerInDataAnchors t e.2))
    (hd : t.kind d.2 = .outData) (hne : d.2 ≠ e.2 ∧ d.2 ≠ e.1) :
    m.peers d.2 = t.peers d.2 ∧ OutDataAnchor.getPeerInDataAnchors m d.2 = OutDataAnchor.getPeerInDataAnchors t d.2 := by
  have hpeers : m.peers d.2 = t.peers d.2 := by
    refine hm.kept d.2 (fun hmem => ?_) hne.1 hne.2
    exact absurd ((of_fed hs hmem).1.symm.trans hd) (by decide)
  refine ⟨hpeers, ?_⟩
  rw [OutDataAnchor.getPeerInDataAnchors, Anchor.getPeersOf, hpeers, OutDataAnchor.getPeerInDataAnchors, Anchor.getPeersOf]
  exact filter_congr fun p _ => by rw [hm.moved.same.kind]

/-- What one round over the pairs of outputs and the others leave. -/
theorem outsReplaced_cons (hs : t.Sound) (hk : ∀ d ∈ e :: pairs, t.Held d.1 ∧ t.kind d.1 = .outData ∧ t.kind d.2 = .outData)
    (hp : Apart (e :: pairs)) (hm : Refed t m e.2 e.1 (OutDataAnchor.getPeerInDataAnchors t e.2)) (ht' : m.OutsReplaced t' pairs)
    (hpeers : ∀ d ∈ pairs, m.peers d.2 = t.peers d.2 ∧
      OutDataAnchor.getPeerInDataAnchors m d.2 = OutDataAnchor.getPeerInDataAnchors t d.2)
    (hother : ∀ d ∈ pairs, ∀ p ∈ OutDataAnchor.getPeerInDataAnchors t d.2, p ∉ OutDataAnchor.getPeerInDataAnchors t e.2) :
    t.OutsReplaced t' (e :: pairs) := by
  obtain ⟨-, hnew, hold⟩ := hk e mem_cons_self
  have hne := hp.cons.2
  have hkind : m.kind = t.kind := funext hm.moved.same.kind
  -- no data output is an input that is fed
  have hout : ∀ o, ∀ x ∈ OutDataAnchor.getPeerInDataAnchors t o, t.kind x ≠ .outData := fun o x hx hkx => by
    rw [(of_fed hs hx).1] at hkx
    cases hkx
  have hrest : ∀ x, t.kind x = .outData → (∀ d ∈ pairs, x ≠ d.1 ∧ x ≠ d.2) → t'.peers x = m.peers x := fun x hkx hx =>
    ht'.kept x fun d hd => ⟨(hx d hd).1, (hx d hd).2, fun hmem => hout d.2 x ((hpeers d hd).2 ▸ hmem) hkx⟩
  have hfirst := hm.lists fun he => hp.sides e mem_cons_self e mem_cons_self he.symm
  refine ⟨ht'.sound, SameButPeers.trans hm.moved.same ht'.same, forall_mem_cons.mpr ⟨?_, fun d hd => ?_⟩,
    forall_mem_cons.mpr ⟨?_, fun d hd => ?_⟩, forall_mem_cons.mpr ⟨fun p hp => ?_, fun d hd p hp => ?_⟩, fun x hx => ?_⟩
  · rw [hrest e.1 hnew fun d hd => ⟨(hne d hd).1.symm, (hne d hd).2.2.2.symm⟩, hfirst.1]
  · rw [ht'.news d hd, (hpeers d hd).2]
    refine congrArg (· ++ _) (hm.kept d.1 (fun hmem => hout e.2 d.1 hmem ?_) (hne d hd).2.2.1 (hne d hd).1)
    exact (hk d (mem_cons_of_mem e hd)).2.1
  · rw [hrest e.2 hold fun d hd => ⟨(hne d hd).2.2.1.symm, (hne d hd).2.1.symm⟩, hfirst.2]
    refine filter_congr fun p hp => ?_
    simp [OutDataAnchor.getPeerInDataAnchors, Anchor.getPeersOf, hp]
  · rw [ht'.olds d hd, (hpeers d hd).1, hkind]
  · have hkp := (of_fed hs hp).1
    rw [← hm.fed p hp]
    refine ht'.kept p fun d hd => ⟨?_, ?_, fun hmem => hother d hd p ((hpeers d hd).2 ▸ hmem) hp⟩
    · rintro rfl
      exact absurd (hkp.symm.trans (hk d (mem_cons_of_mem e hd)).2.1) (by decide)
    · rintro rfl
      exact absurd (hkp.symm.trans (hk d (mem_cons_of_mem e hd)).2.2) (by decide)
  · exact ht'.fed d hd p ((hpeers d hd).2 ▸ hp)
  · obtain ⟨⟨h₁, h₂, h₃⟩, hx⟩ := forall_mem_cons.mp hx
    rw [ht'.kept x fun d hd => ⟨(hx d hd).1, (hx d hd).2.1, fun hmem => (hx d hd).2.2 ((hpeers d hd).2 ▸ hmem)⟩]
    exact hm.kept x h₃ h₂ h₁

/-- The pairs of outputs are replaced when the inputs fed have no other link. -/
theorem replaceOuts_pairs : ∀ {pairs : List (AnchorId × AnchorId)} {t : Heap}, t.Sound → Apart pairs →
    (∀ e ∈ pairs, t.Held e.1 ∧ t.kind e.1 = .outData ∧ t.kind e.2 = .outData) →
    (t.OutsSingle pairs ∧ ∃ t', Cmd.eachOk replaceOutPair pairs t = some (true, t') ∧ t.OutsReplaced t' pairs) ∨
      (¬ t.OutsSingle pairs ∧ ∃ t', Cmd.eachOk replaceOutPair pairs t = some (false, t')) := by
  intro pairs
  induction pairs with
  | nil =>
    intro t hs _ _
    have hnil : ∀ {P : AnchorId × AnchorId → Prop}, ∀ e ∈ ([] : List (AnchorId × AnchorId)), P e :=
      fun _ he => absurd he not_mem_nil
    exact .inl ⟨hnil, t, rfl, hs, SameButPeers.refl t, hnil, hnil, hnil, fun _ _ => rfl⟩
  | cons e pairs ih =>
    intro t hs hp hk
    obtain ⟨hheld, hnew, hold⟩ := hk e mem_cons_self
    obtain ⟨hp', hne⟩ := hp.cons
    rcases replaceOutPair_spec hs hheld hnew hold with ⟨hall, m, hm, hfed⟩ | ⟨⟨p, hmem, hmany⟩, m, hm⟩
    · have hpeers : ∀ d ∈ pairs, m.peers d.2 = t.peers d.2 ∧
          OutDataAnchor.getPeerInDataAnchors m d.2 = OutDataAnchor.getPeerInDataAnchors t d.2 := fun d hd =>
        peersIn_of_refed hs hfed (hk d (mem_cons_of_mem e hd)).2.2 ⟨(hne d hd).2.1, (hne d hd).2.2.2⟩
      -- an input that another output feeds is not fed by this one
      have hother : ∀ d ∈ pairs, ∀ p ∈ OutDataAnchor.getPeerInDataAnchors t d.2, m.peers p = t.peers p ∧
          p ∉ OutDataAnchor.getPeerInDataAnchors t e.2 := by
        intro d hd p hp
        obtain ⟨hkp, -, hback⟩ := of_fed hs hp
        have hnot : p ∉ OutDataAnchor.getPeerInDataAnchors t e.2 := by
          intro hmem
          rw [hall p hmem, mem_singleton] at hback
          exact (hne d hd).2.1 hback
        refine ⟨hfed.kept p hnot ?_ ?_, hnot⟩
        · rintro rfl
          exact absurd (hkp.symm.trans hold) (by decide)
        · rintro rfl
          exact absurd (hkp.symm.trans hnew) (by decide)
      have hsingle : m.OutsSingle pairs ↔ t.OutsSingle (e :: pairs) := by
        refine ⟨fun hsing => forall_mem_cons.mpr ⟨hall, fun d hd p hp => ?_⟩, fun hsing d hd p hp => ?_⟩
        · rw [← (hother d hd p hp).1]
          exact hsing d hd p ((hpeers d hd).2 ▸ hp)
        · rw [(hpeers d hd).2] at hp
          rw [(hother d hd p hp).1]
          exact hsing d (mem_cons_of_mem e hd) p hp
      have hkm : ∀ d ∈ pairs, m.Held d.1 ∧ m.kind d.1 = .outData ∧ m.kind d.2 = .outData := by
        intro d hd
        rw [hfed.moved.same.held, hfed.moved.same.kind, hfed.moved.same.kind]
        exact hk d (mem_cons_of_mem e hd)
      rw [Cmd.eachOk, bind_of_eq hm, ← hsingle]
      rcases ih hfed.moved.sound hp' hkm with ⟨hsing, t', hr, ht'⟩ | ⟨hsing, t', hr⟩
      · exact .inl ⟨hsing, t', hr, outsReplaced_cons hs hk hp hfed ht' hpeers fun d hd p hp => (hother d hd p hp).2⟩
      · exact .inr ⟨hsing, t', hr⟩
    · refine .inr ⟨fun hall => hmany (hall e mem_cons_self p hmem), m, ?_⟩
      rw [Cmd.eachOk, bind_of_eq hm]
      rfl

/-! ## Inputs -/

/-- The round over a pair of inputs. -/
def replaceInPair (e : AnchorId × AnchorId) : Cmd Heap Bool := do
  let h ← get
  let some peerOut := InDataAnchor.getPeerOutAnchor h e.2 | return true
  if !(← Anchor.unlink peerOut (some e.2)) then return false
  OutDataAnchor.linkTo peerOut (some e.1)

/-- The source of an input is a data output, and its first peer. -/
theorem of_getPeerOutAnchor {s : AnchorId} (hx : InDataAnchor.getPeerOutAnchor t x = some s) :
    t.kind s = .outData ∧ t.peers x = s :: (t.peers x).tail := by
  unfold InDataAnchor.getPeerOutAnchor at hx
  cases hp : t.peers x with
  | nil => simp [hp] at hx
  | cons b rest =>
    rw [hp] at hx
    by_cases hk : t.kind b = .outData
    · obtain rfl : b = s := by simpa [hk] using hx
      exact ⟨hk, rfl⟩
    · simp [hk] at hx

/-- What the round over a pair of inputs leaves. -/
structure InReplaced (t m : Heap) (e : AnchorId × AnchorId) : Prop where
  sound : m.Sound
  same : t.SameButPeers m
  new : m.peers e.1 = (InDataAnchor.getPeerOutAnchor t e.2).elim (t.peers e.1) fun s => [s]
  old : m.peers e.2 = if (InDataAnchor.getPeerOutAnchor t e.2).isSome then (t.peers e.2).tail else t.peers e.2
  others : ∀ x, x ≠ e.1 → x ≠ e.2 → m.peers x = t.reseat x (t.peers x) e

/-- A pair of inputs is replaced when the new input is free or the old one has no source. -/
theorem replaceInPair_spec (hs : t.Sound) (hheld : t.Held e.1) (hnew : t.kind e.1 = .inData)
    (hold : t.kind e.2 = .inData) (hne : e.1 ≠ e.2) :
    (((InDataAnchor.getPeerOutAnchor t e.2).isSome → t.peers e.1 = []) ∧ ∃ m, replaceInPair e t = some (true, m) ∧
      InReplaced t m e) ∨
      (¬ ((InDataAnchor.getPeerOutAnchor t e.2).isSome → t.peers e.1 = []) ∧ ∃ m, replaceInPair e t = some (false, m)) := by
  cases hx : InDataAnchor.getPeerOutAnchor t e.2 with
  | none =>
    refine .inl ⟨nofun, t, ?_, hs, SameButPeers.refl t, by rw [hx]; rfl, by rw [hx]; rfl, fun x _ _ => ?_⟩
    · rw [replaceInPair, get_bind_apply, hx]
      rfl
    · rw [reseat, hx, if_neg nofun]
  | some s =>
    obtain ⟨hks, hpeers⟩ := of_getPeerOutAnchor hx
    have hmem : e.2 ∈ t.peers s := hs.symm.mem (hpeers ▸ mem_cons_self)
    have hsne : ∀ {x}, t.kind x = .inData → x ≠ s := by
      rintro x hkx rfl
      exact absurd (hkx.symm.trans hks) (by decide)
    obtain ⟨m, hm, hsm, hsame, hpm⟩ := unlink_linked hs hmem (hsne hold)
    have hfree : m.peers e.1 = t.peers e.1 := by rw [hpm, if_neg hne, if_neg (hsne hnew)]
    have hrun : replaceInPair e t = OutDataAnchor.linkTo s (some e.1) m := by
      rw [replaceInPair, get_bind_apply, hx]
      exact bind_of_eq hm
    by_cases hempty : t.peers e.1 = []
    · refine .inl ⟨fun _ => hempty, Anchor.linked m s e.1, ?_, ?_, SameButPeers.trans hsame (SameButPeers.linked m s e.1), ?_, ?_,
        fun x h₁ h₂ => ?_⟩
      · rw [hrun]
        simp [OutDataAnchor.linkTo, Anchor.link, hfree, hempty]
      · exact hsm.linked ((hsame.held s).mpr (hs.symm.held hs.peersHeld hmem)) ((hsame.held e.1).mpr hheld)
      · rw [linked_peers_snd (hsne hnew).symm, hfree, hempty, hx]
        rfl
      · have htail : (t.peers e.2).erase s = (t.peers e.2).tail := by
          conv_lhs => rw [hpeers]
          exact erase_cons_head ..
        rw [linked_peers_of_ne (hsne hold) hne.symm, hpm, if_pos rfl, htail, hx]
        rfl
      · rw [reseat, hx]
        by_cases h₃ : x = s
        · have hown : m.peers s = (t.peers s).erase e.2 := by rw [hpm, if_neg (hsne hold).symm, if_pos rfl]
          simp [h₃, Anchor.linked, (hsne hnew).symm, hown]
        · rw [if_neg fun he => h₃ (Option.some.inj he).symm, linked_peers_of_ne h₃ h₁, hpm, if_neg h₂, if_neg h₃]
    · refine .inr ⟨fun himp => hempty (himp rfl), m, ?_⟩
      rw [hrun]
      simp [OutDataAnchor.linkTo, Anchor.link, hfree, hempty]

/-- The source of another input stays. -/
theorem source_of_replaced (hm : InReplaced t m e) (hk : t.kind x = .inData)
    (h₁ : x ≠ e.1) (h₂ : x ≠ e.2) : m.peers x = t.peers x ∧ InDataAnchor.getPeerOutAnchor m x =
      InDataAnchor.getPeerOutAnchor t x := by
  have hpeers : m.peers x = t.peers x := by
    rw [hm.others x h₁ h₂, reseat, if_neg]
    intro he
    exact absurd (hk.symm.trans (of_getPeerOutAnchor he).1) (by decide)
  refine ⟨hpeers, ?_⟩
  unfold InDataAnchor.getPeerOutAnchor
  rw [hpeers, show m.kind = t.kind from funext hm.same.kind]

/-- What one round over the pairs of inputs and the others leave. -/
theorem insReplaced_cons (hk : ∀ d ∈ e :: pairs, t.Held d.1 ∧ t.kind d.1 = .inData ∧ t.kind d.2 = .inData)
    (hp : Apart (e :: pairs)) (hm : InReplaced t m e) (ht' : m.InsReplaced t' pairs)
    (hkept : ∀ d ∈ pairs, m.peers d.1 = t.peers d.1 ∧ m.peers d.2 = t.peers d.2 ∧
      InDataAnchor.getPeerOutAnchor m d.2 = InDataAnchor.getPeerOutAnchor t d.2) : t.InsReplaced t' (e :: pairs) := by
  obtain ⟨-, hnew, hold⟩ := hk e mem_cons_self
  have hne := hp.cons.2
  have hkind : m.kind = t.kind := funext hm.same.kind
  have hdata : ∀ {x}, t.kind x = .inData → m.kind x ≠ .outData := fun hx he => by
    rw [hkind, hx] at he
    cases he
  refine ⟨ht'.sound, SameButPeers.trans hm.same ht'.same, forall_mem_cons.mpr ⟨?_, fun d hd => ?_⟩,
    forall_mem_cons.mpr ⟨?_, fun d hd => ?_⟩, fun s hks => ?_, fun x hx hkx => ?_⟩
  · rw [ht'.kept e.1 (fun d hd => ⟨(hne d hd).1.symm, (hne d hd).2.2.2.symm⟩) (hdata hnew), hm.new]
  · rw [ht'.news d hd, (hkept d hd).1, (hkept d hd).2.2]
  · rw [ht'.kept e.2 (fun d hd => ⟨(hne d hd).2.2.1.symm, (hne d hd).2.1.symm⟩) (hdata hold), hm.old]
  · rw [ht'.olds d hd, (hkept d hd).2.1, (hkept d hd).2.2]
  · have hse : ∀ {x}, t.kind x = .inData → s ≠ x := by
      rintro x hkx rfl
      exact absurd (hkx.symm.trans hks) (by decide)
    rw [ht'.outs s (by rw [hkind, hks]), hm.others s (hse hnew) (hse hold), foldl_cons]
    refine foldl_ext _ _ _ fun l d hd => ?_
    rw [reseat, reseat, (hkept d hd).2.2]
  · obtain ⟨⟨h₁, h₂⟩, hx⟩ := forall_mem_cons.mp hx
    rw [ht'.kept x hx (by rw [hkind]; exact hkx), hm.others x h₁ h₂, reseat, if_neg]
    exact fun he => hkx (of_getPeerOutAnchor he).1

/-- The pairs of inputs are replaced when the new inputs that are to be fed are free. -/
theorem replaceIns_pairs : ∀ {pairs : List (AnchorId × AnchorId)} {t : Heap}, t.Sound → Apart pairs →
    (∀ e ∈ pairs, t.Held e.1 ∧ t.kind e.1 = .inData ∧ t.kind e.2 = .inData) →
    (t.InsFree pairs ∧ ∃ t', Cmd.eachOk replaceInPair pairs t = some (true, t') ∧ t.InsReplaced t' pairs) ∨
      (¬ t.InsFree pairs ∧ ∃ t', Cmd.eachOk replaceInPair pairs t = some (false, t')) := by
  intro pairs
  induction pairs with
  | nil =>
    intro t hs _ _
    have hnil : ∀ {P : AnchorId × AnchorId → Prop}, ∀ e ∈ ([] : List (AnchorId × AnchorId)), P e :=
      fun _ he => absurd he not_mem_nil
    exact .inl ⟨hnil, t, rfl, hs, SameButPeers.refl t, hnil, hnil, fun _ _ => rfl, fun _ _ _ => rfl⟩
  | cons e pairs ih =>
    intro t hs hp hk
    obtain ⟨hheld, hnew, hold⟩ := hk e mem_cons_self
    obtain ⟨hp', hne⟩ := hp.cons
    have hsides : e.1 ≠ e.2 := hp.sides e mem_cons_self e mem_cons_self
    have hcons : t.InsFree (e :: pairs) ↔ ((InDataAnchor.getPeerOutAnchor t e.2).isSome → t.peers e.1 = []) ∧ t.InsFree pairs :=
      forall_mem_cons
    rw [hcons]
    rcases replaceInPair_spec hs hheld hnew hold hsides with ⟨hfree, m, hm, hround⟩ | ⟨hfree, m, hm⟩
    · have hkept : ∀ d ∈ pairs, m.peers d.1 = t.peers d.1 ∧ m.peers d.2 = t.peers d.2 ∧
          InDataAnchor.getPeerOutAnchor m d.2 = InDataAnchor.getPeerOutAnchor t d.2 := by
        intro d hd
        obtain ⟨-, hk₁, hk₂⟩ := hk d (mem_cons_of_mem e hd)
        obtain ⟨h₁, h₂, h₃, h₄⟩ := hne d hd
        exact ⟨(source_of_replaced hround hk₁ h₁ h₃).1, source_of_replaced hround hk₂ h₄ h₂⟩
      have hrest : m.InsFree pairs ↔ t.InsFree pairs := by
        refine forall₂_congr fun d hd => ?_
        rw [(hkept d hd).1, (hkept d hd).2.2]
      have hkm : ∀ d ∈ pairs, m.Held d.1 ∧ m.kind d.1 = .inData ∧ m.kind d.2 = .inData := by
        intro d hd
        rw [hround.same.held, hround.same.kind, hround.same.kind]
        exact hk d (mem_cons_of_mem e hd)
      rw [Cmd.eachOk, bind_of_eq hm, ← hrest]
      rcases ih hround.sound hp' hkm with ⟨hall, t', hr, ht'⟩ | ⟨hall, t', hr⟩
      · exact .inl ⟨⟨hfree, hall⟩, t', hr, insReplaced_cons hk hp hround ht' hkept⟩
      · exact .inr ⟨fun hboth => hall hboth.2, t', hr⟩
    · refine .inr ⟨fun hboth => hfree hboth.1, m, ?_⟩
      rw [Cmd.eachOk, bind_of_eq hm]
      rfl

end MappedAnchorsAux

end Metadef
