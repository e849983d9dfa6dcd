import Metadef.GraphUtils
import Metadef.Lib.Labels
import Metadef.Lib.Run

/-!
# Reference mapping

However anchors are entered, their symbols tell which of them refer to one buffer.
-/

namespace Metadef

open List

/-- The anchors that a symbol lists. -/
def RefTables.anchors (s : RefTables) (σ : String) : List String := ((s.listOf σ).getD []).map NodeIndexIO.value

/-- The lists of the symbols part the anchors: an anchor is listed once, under its symbol, and a symbol is an anchor of its own list. -/
structure RefTables.Partition (s : RefTables) : Prop where
  nodup : ∀ σ, (s.anchors σ).Nodup
  mem : ∀ {a σ}, a ∈ s.anchors σ ↔ s.symbolOf a = some σ
  root : ∀ {σ infos}, s.listOf σ = some infos → s.symbolOf σ = some σ
  named : s.symbolOf "" = none

/-- The pairs of anchors that a call makes refer to one buffer. -/
def RefTables.joins (s : RefTables) : RefCall → List (String × String)
  | .inAnchor cur peer => peer.toList.map fun info => (cur.value, info.value)
  | .outAnchor cur reused => if s.anchorToSymbol.contains cur.value then [] else reused.toList.map fun info => (cur.value, info.value)
  | .subgraphOutput peer parent cur => [(cur.value, peer.value), (peer.value, parent.value)]

/-- An input is new: the handlers do not ask. -/
def RefTables.Fresh (s : RefTables) : RefCall → Prop
  | .inAnchor cur _ | .subgraphOutput _ _ cur => s.symbolOf cur.value = none
  | .outAnchor _ _ => True

instance (s : RefTables) : ∀ c, Decidable (s.Fresh c)
  | .inAnchor _ _ | .subgraphOutput _ _ _ => inferInstanceAs (Decidable (_ = none))
  | .outAnchor _ _ => .isTrue trivial

/-- A call, and the pairs joined so far. -/
def RefTables.logged (r : RefTables × List (String × String)) (c : RefCall) : Option (RefTables × List (String × String)) :=
  (r.1.handle c).map fun t => (t, r.1.joins c ++ r.2)

namespace RefMappingAux

open RefTables Labels OrderedMap

variable {s t : RefTables} {l : List (String × String)} {cur : NodeIndexIO} {a x y σ τ ρ : String} {infos infos' : List NodeIndexIO}

theorem value_ne (cur : NodeIndexIO) : cur.value ≠ "" := by
  unfold NodeIndexIO.value
  split <;> simp

/-- The tables part the anchors as the pairs joined do. -/
structure Good (s : RefTables) (l : List (String × String)) : Prop where
  part : s.Partition
  tells : Tells s.symbolOf l

theorem exists_list (h : s.Partition) (ha : s.symbolOf a = some σ) : ∃ infos, s.listOf σ = some infos := by
  cases hσ : s.listOf σ with
  | some infos => exact ⟨infos, rfl⟩
  | none =>
    have hmem := h.mem.mpr ha
    simp [anchors, hσ] at hmem

theorem no_list (h : s.Partition) (hx : s.symbolOf x = none) : s.listOf x = none := by
  cases hs : s.listOf x with
  | none => rfl
  | some infos => exact absurd (h.root hs) (by simp [hx])

theorem not_symbol (h : s.Partition) (hx : s.symbolOf x = none) (a : String) : s.symbolOf a ≠ some x := by
  intro ha
  obtain ⟨infos, hinfos⟩ := exists_list h ha
  simp [no_list h hx] at hinfos

theorem symbolOf_addAnchor (hx : s.symbolOf cur.value = none) (σ a : String) :
    (addAnchor σ cur s).symbolOf a = if a = cur.value then some σ else s.symbolOf a := by
  simp [symbolOf, addAnchor, find_insert, find_eq_none.mp hx]

/-- A new anchor is listed behind those of a symbol, which may be its own. -/
theorem partition_addAnchor (h : s.Partition) (hx : s.symbolOf cur.value = none) (hσ : σ = cur.value ∨ s.symbolOf σ = some σ) :
    (addAnchor σ cur s).Partition := by
  have hlab := symbolOf_addAnchor hx σ
  have hsym : ∀ τ, (addAnchor σ cur s).listOf τ = if τ = σ then some ((s.listOf σ).getD [] ++ [cur]) else s.listOf τ :=
    (find_assign _ _ · _)
  have hlist : ∀ τ, (addAnchor σ cur s).anchors τ = if τ = σ then s.anchors σ ++ [cur.value] else s.anchors τ := fun τ => by
    unfold anchors
    rw [hsym]
    split <;> simp
  have hnot := not_symbol h hx
  refine ⟨fun τ => ?_, fun {a τ} => ?_, fun {τ infos} hτ => ?_, ?_⟩
  · rw [hlist]
    split
    · refine nodup_append.mpr ⟨h.nodup σ, nodup_singleton _, fun a ha b hb => ?_⟩
      rw [h.mem] at ha
      grind
    · exact h.nodup τ
  · rw [hlist, hlab]
    have hmem : a ∈ s.anchors τ ↔ _ := h.mem
    grind
  · rw [hsym] at hτ
    rw [hlab]
    have hold := @h.root τ
    grind
  · rw [hlab, if_neg (value_ne cur).symm, h.named]

/-- A new anchor enters with a symbol of its own. -/
theorem Good.enter (h : Good s l) (hx : s.symbolOf cur.value = none) : Good (addAnchor cur.value cur s) l :=
  ⟨partition_addAnchor h.part hx (.inl rfl), h.tells.enter hx (not_symbol h.part hx) (symbolOf_addAnchor hx _)⟩

/-- A new anchor is listed with one that is there. -/
theorem Good.add (h : Good s l) (hx : s.symbolOf cur.value = none) (hy : s.symbolOf y = some σ) :
    Good (addAnchor σ cur s) ((cur.value, y) :: l) := by
  obtain ⟨infos, hinfos⟩ := exists_list h.part hy
  exact ⟨partition_addAnchor h.part hx (.inr (h.part.root hinfos)),
    h.tells.join hx (not_symbol h.part hx) hy (symbolOf_addAnchor hx σ)⟩

/-- The anchors moved get the symbol that stays. -/
theorem moveAnchors_eq (σ : String) {m : OrderedMap String String} (h : ∀ info ∈ infos, m.find info.value ≠ none) :
    ∃ m', moveAnchors σ infos m = some m' ∧ ∀ a, m'.find a = if a ∈ infos.map NodeIndexIO.value then some σ else m.find a := by
  induction infos generalizing m with
  | nil => exact ⟨m, rfl, by simp⟩
  | cons info infos ih =>
    have hthere := mt find_eq_none.mpr (h info mem_cons_self)
    obtain ⟨m', hm', hfind⟩ := ih (m := m.assign info.value σ) fun info' hinfo' => by
      rw [find_assign]
      split
      · simp
      · exact h info' (mem_cons_of_mem _ hinfo')
    refine ⟨m', by simp_all [moveAnchors], fun a => ?_⟩
    by_cases hac : a = info.value <;> simp [hfind, find_assign, hac]

/-- The anchors of a symbol are moved to another. -/
theorem moveSymbol_eq (h : s.Partition) (hσ : s.listOf σ = some infos) (hτ : s.listOf τ = some infos') (hne : σ ≠ τ) :
    ∃ t, moveSymbol σ τ infos infos' s = some (σ, t) ∧ t.Partition ∧
      ∀ a, t.symbolOf a = if s.symbolOf a = some τ then some σ else s.symbolOf a := by
  have hmem : ∀ a, a ∈ infos'.map NodeIndexIO.value ↔ s.symbolOf a = some τ := fun a => by
    rw [← h.mem, anchors, hτ]
    rfl
  obtain ⟨m, hm, hlab⟩ : ∃ m, moveAnchors σ infos' s.anchorToSymbol = some m ∧ _ := moveAnchors_eq σ fun info hinfo => by
    simp [(hmem info.value).mp (mem_map_of_mem hinfo)]
  simp only [hmem] at hlab
  obtain ⟨t, ht, hlab, hsym⟩ : ∃ t, moveSymbol σ τ infos infos' s = some (σ, t) ∧
      (∀ a, t.symbolOf a = if s.symbolOf a = some τ then some σ else s.symbolOf a) ∧
      ∀ υ, t.listOf υ = if υ = τ then none else if υ = σ then some (infos ++ infos') else s.listOf υ :=
    ⟨_, by rw [moveSymbol, hm]; rfl, hlab, fun υ => by rw [listOf, find_erase, find_assign]⟩
  have hlist : ∀ υ, t.anchors υ = if υ = τ then [] else if υ = σ then s.anchors σ ++ s.anchors τ else s.anchors υ := fun υ => by
    simp only [anchors, hsym, hσ, hτ]
    split_ifs <;> simp
  refine ⟨t, ht, ⟨fun υ => ?_, fun {a υ} => ?_, fun {υ _} hυ => ?_, ?_⟩, hlab⟩
  · rw [hlist]
    split_ifs with hυτ hυσ
    · exact nodup_nil
    · refine nodup_append.mpr ⟨h.nodup σ, h.nodup τ, fun a ha b hb => ?_⟩
      rw [h.mem] at ha hb
      grind
    · exact h.nodup υ
  · rw [hlist, hlab]
    have hmem : ∀ ρ, a ∈ s.anchors ρ ↔ _ := fun ρ => h.mem
    grind
  · rw [hsym] at hυ
    have hold := @h.root υ
    grind
  · rw [hlab, h.named]
    rfl

theorem insert_of_find {m : OrderedMap String String} (h : m.find x ≠ none) : m.insert x τ = m :=
  if_pos (by simpa using mt find_eq_none.mpr h)

theorem getD_insert (m : OrderedMap String String) (x y : String) : ((m.insert x "").find y).getD "" = (m.find y).getD "" := by
  rw [find_insert]
  split
  · rename_i h
    simp [h.1, find_eq_none.mpr h.2]
  · rfl

/-- A union that gives a symbol joins two anchors that are there, and gives that of both. -/
theorem Good.union (h : Good s l) (hu : unionNamed x y s = some (ρ, t)) : Good t ((x, y) :: l) ∧ t.symbolOf x = some ρ ∧
    ∀ a, s.symbolOf a = none → t.symbolOf a = none := by
  obtain ⟨hu, hρ⟩ := Option.filter_eq_some_iff.mp hu
  simp only [unionSymbolMapping, getD_insert] at hu
  generalize hx : (s.symbolOf x).getD "" = σ at hu
  generalize hy : (s.symbolOf y).getD "" = τ at hu
  have hthere : σ ≠ "" → τ ≠ "" → s.symbolOf x = some σ ∧ s.symbolOf y = some τ ∧
      (s.anchorToSymbol.insert x "").insert y "" = s.anchorToSymbol := by
    intro hσ hτ
    have hx : s.symbolOf x = some σ := by cases hf : s.symbolOf x <;> simp_all
    have hy : s.symbolOf y = some τ := by cases hf : s.symbolOf y <;> simp_all
    exact ⟨hx, hy, by rw [insert_of_find (x := x) (by simp [hx]), insert_of_find (by simp [hy])]⟩
  have hlisted : ∀ {τ infos}, s.listOf τ = some infos → τ ≠ "" := by
    rintro _ infos hinfos rfl
    simp [no_list h.part h.part.named] at hinfos
  split at hu
  · rename_i heq
    obtain ⟨rfl, rfl⟩ := Prod.mk.inj (Option.some.inj hu)
    obtain ⟨hx, hy, hs⟩ := hthere (by simpa using hρ) (by simpa [heq] using hρ)
    rw [hs]
    exact ⟨⟨h.part, h.tells.unite (v := σ) hx hy (.inl rfl) (by grind)⟩, hx, fun _ => id⟩
  · rename_i hne
    simp only [Option.bind_eq_bind, Option.bind_eq_some_iff] at hu
    obtain ⟨infos, hinfos, infos', hinfos', hu⟩ := hu
    obtain ⟨hx, hy, hs⟩ := hthere (hlisted hinfos) (hlisted hinfos')
    rw [hs] at hu
    obtain ⟨σ', τ', infos, infos', hσ, hτ, hor, hu⟩ : ∃ σ' τ' infos infos', s.listOf σ' = some infos ∧
        s.listOf τ' = some infos' ∧ (σ' = σ ∧ τ' = τ ∨ σ' = τ ∧ τ' = σ) ∧
        moveSymbol σ' τ' infos infos' s = some (ρ, t) := by
      split at hu
      · exact ⟨_, _, _, _, hinfos, hinfos', .inl ⟨rfl, rfl⟩, hu⟩
      · exact ⟨_, _, _, _, hinfos', hinfos, .inr ⟨rfl, rfl⟩, hu⟩
    obtain ⟨t', hu', hpart, hlab⟩ := moveSymbol_eq h.part hσ hτ (by grind)
    obtain ⟨rfl, rfl⟩ := Prod.mk.inj (Option.some.inj (hu'.symm.trans hu))
    exact ⟨⟨hpart, h.tells.unite (v := σ') hx hy (by grind) (by grind)⟩, by grind, by grind⟩

/-- What a call does to the tables, it says with the pairs. -/
theorem Good.handle {c : RefCall} (h : Good s l) (hfresh : s.Fresh c) (ht : s.handle c = some t) : Good t (s.joins c ++ l) := by
  have hupdate : ∀ {cur exist : NodeIndexIO}, s.symbolOf cur.value = none → updateRefMapping cur exist s = some t →
      Good t ((cur.value, exist.value) :: l) := by
    intro cur exist hx hu
    simp only [updateRefMapping, Option.bind_eq_bind, Option.bind_eq_some_iff] at hu
    obtain ⟨σ, hσ, _, _, hu⟩ := hu
    obtain rfl := Option.some.inj hu
    exact h.add hx hσ
  cases c with
  | inAnchor cur peer =>
    cases peer with
    | none =>
      have heq : RefTables.handle s (.inAnchor cur none) = some (addAnchor cur.value cur s) := by
        simp [RefTables.handle, addAnchor, no_list h.part hfresh, assign_of_new (find_eq_none.mp hfresh)]
      obtain rfl := Option.some.inj (heq.symm.trans ht)
      exact h.enter hfresh
    | some peer => exact hupdate hfresh ht
  | outAnchor cur reused =>
    simp only [RefTables.handle, joins] at ht ⊢
    split at ht
    · obtain rfl := Option.some.inj ht
      simp [*]
    · rename_i hnew
      have hx := find_eq_none.mpr (Bool.eq_false_iff.mpr hnew)
      rw [if_neg hnew]
      cases reused with
      | none =>
        have hnone := no_list h.part hx
        rw [← assign_of_new (find_eq_none.mp hnone)] at ht
        obtain rfl := Option.some.inj ht
        simpa [addAnchor, hnone] using h.enter hx
      | some exist => exact hupdate hx ht
  | subgraphOutput peer parent cur =>
    simp only [RefTables.handle, Option.bind_eq_bind, Option.bind_eq_some_iff] at ht
    obtain ⟨⟨σ, s'⟩, hu, ht⟩ := ht
    obtain rfl := Option.some.inj ht
    obtain ⟨h', hx, hnone⟩ := h.union hu
    exact h'.add (hnone _ hfresh) hx

end RefMappingAux

open RefTables Labels in
/-- However the handlers are called, the tables part the anchors: two anchors have one symbol exactly when references that were found
lead from one to the other. -/
theorem ref_symbols {calls : List RefCall} {t : RefTables} {pairs : List (String × String)}
    (hfresh : Run.Each logged (fun r => Fresh r.1) calls ({}, [])) (h : Run.exec logged calls ({}, []) = some (t, pairs)) :
    t.Partition ∧ ∀ {a b σ τ}, t.symbolOf a = some σ → t.symbolOf b = some τ → (σ = τ ↔ Joined pairs a b) := by
  have hgood : RefMappingAux.Good t pairs := by
    refine Run.invariant (P := fun r => RefMappingAux.Good r.1 r.2) (fun s c t' hs hfresh ht => ?_) calls _ _ ?_ hfresh h
    · obtain ⟨t, ht', rfl⟩ := Option.map_eq_some_iff.mp ht
      exact hs.handle hfresh ht'
    · exact ⟨⟨fun _ => nodup_nil, by simp [anchors, OrderedMap.find], by simp [OrderedMap.find], rfl⟩, by simp, by simp [OrderedMap.find]⟩
  refine ⟨hgood.part, fun {a b σ τ} ha hb => ⟨fun heq => hgood.tells.complete ha (heq ▸ hb), fun hab => ?_⟩⟩
  exact Option.some.inj (ha.symm.trans ((hgood.tells.same hab).trans hb))

namespace RefMappingWitness

open RefTables Labels

/-- One output feeds an input, and the body of its node gives the other. -/
def calls : List RefCall :=
  [.outAnchor ⟨"a", 0, true⟩ none, .outAnchor ⟨"b", 0, true⟩ none, .inAnchor ⟨"c", 0, false⟩ (some ⟨"a", 0, true⟩),
    .subgraphOutput ⟨"b", 0, true⟩ ⟨"a", 0, true⟩ ⟨"net", 0, false⟩]

theorem ref_symbols_joined : ∃ r, Run.exec logged calls ({}, []) = some r ∧ r.1.Partition ∧ Joined r.2 "c_in_0" "b_out_0" := by
  obtain ⟨r, hr, heq⟩ := Option.map_eq_some_iff.mp (by decide +kernel : (Run.exec logged calls ({}, [])).map
    (fun r => (r.1.symbolOf "c_in_0", r.1.symbolOf "b_out_0")) = some (some "a_out_0", some "a_out_0"))
  obtain ⟨hc, hb⟩ := Prod.mk.inj heq
  obtain ⟨hpart, hjoined⟩ := ref_symbols (by decide +kernel) hr
  exact ⟨r, hr, hpart, (hjoined hc hb).mp rfl⟩

end RefMappingWitness

end Metadef
