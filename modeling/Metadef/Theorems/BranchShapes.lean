import Metadef.ShapeRefiner

/-!
# Shapes of branches

The shape a node gets for an output of its branches is their least upper bound, whatever their order, unless a shape of unknown
rank is compared with shapes of as many dimensions as it has numbers.
-/

namespace Metadef

open List

/-! ## How much a shape tells -/

namespace GeShape

/-- The number of dimensions is unknown. -/
def UnknownRank (s : GeShape) : Prop := unknownDimNum ∈ s.dims

/-- A shape is below those that tell less: of unknown rank, or with some dimensions unknown. -/
instance : Preorder GeShape where
  le s t := t.UnknownRank ∨ ¬s.UnknownRank ∧ List.Forall₂ (fun a b => b = a ∨ b = unknownDim) s.dims t.dims
  le_refl s := by
    by_cases hs : s.UnknownRank
    · exact .inl hs
    · exact .inr ⟨hs, forall₂_same.mpr fun _ _ => .inl rfl⟩
  le_trans s t u := by
    rintro hst (hu | ⟨ht, htu⟩)
    · exact .inl hu
    · obtain ⟨hs, hst⟩ := hst.resolve_left ht
      refine .inr ⟨hs, ?_⟩
      rw [forall₂_iff_get] at hst htu ⊢
      refine ⟨hst.1.trans htu.1, fun i h1 h2 => ?_⟩
      have h3 : i < t.dims.length := hst.1 ▸ h1
      rcases htu.2 i h3 h2 with h | h
      · rw [h]
        exact hst.2 i h1 h3
      · exact .inr h

end GeShape

/-! ## Merging -/

/-- The dimensions that lists of one length agree on, and unknown ones elsewhere. -/
structure Merged (shapes : List (List Int64)) (w : List Int64) : Prop where
  lengths : ∀ s ∈ shapes, s.length = w.length
  dims : ∀ j : Nat, (∀ s ∈ shapes, s[j]? = w[j]?) ∨ w[j]? = some unknownDim ∧ ∃ s ∈ shapes, ∃ s' ∈ shapes, s[j]? ≠ s'[j]?

namespace Merged

variable {shapes shapes' : List (List Int64)} {w w' s : List Int64}

theorem singleton (s : List Int64) : Merged [s] s := ⟨by simp, fun j => .inl (by simp)⟩

/-- What lists are merged to depends on which lists they are. -/
theorem unique (hne : shapes ≠ []) (hmem : ∀ s, s ∈ shapes ↔ s ∈ shapes') (h : Merged shapes w) (h' : Merged shapes' w') : w =
    w' := by
  obtain ⟨s, hs⟩ := exists_mem_of_ne_nil shapes hne
  refine ext_getElem? fun j => ?_
  rcases h.dims j with h1 | ⟨h1, a, ha, b, hb, hab⟩
  · rcases h'.dims j with h2 | ⟨h2, a, ha, b, hb, hab⟩
    · exact (h1 s hs).symm.trans (h2 s ((hmem s).mp hs))
    · exact absurd ((h1 a ((hmem a).mpr ha)).trans (h1 b ((hmem b).mpr hb)).symm) hab
  · rcases h'.dims j with h2 | ⟨h2, -⟩
    · exact absurd ((h2 a ((hmem a).mp ha)).trans (h2 b ((hmem b).mp hb)).symm) hab
    · exact h1.trans h2.symm

/-- One more list of the length is merged dimension by dimension. -/
theorem cons (hne : shapes ≠ []) (h : Merged shapes w) (hlen : s.length = w.length) :
    Merged (s :: shapes) (BranchNode.mergeDims w s) := by
  obtain ⟨a, ha⟩ := exists_mem_of_ne_nil shapes hne
  have hmerged : (BranchNode.mergeDims w s).length = w.length := by simp [BranchNode.mergeDims, hlen]
  refine ⟨?_, fun j => ?_⟩
  · intro s' hs'
    rw [hmerged]
    rcases mem_cons.mp hs' with rfl | hs'
    · exact hlen
    · exact h.lengths s' hs'
  · by_cases hj : j < w.length
    · have hw : w[j]? = some w[j] := getElem?_eq_getElem hj
      have hs : s[j]? = some s[j] := getElem?_eq_getElem (hlen ▸ hj)
      have hget : (BranchNode.mergeDims w s)[j]? = some (if w[j] = s[j] then w[j] else unknownDim) := by
        simp [BranchNode.mergeDims, getElem?_zipWith, hw, hs]
      rw [hget]
      rcases h.dims j with h1 | ⟨h1, b, hb, c, hc, hbc⟩
      · by_cases heq : w[j] = s[j]
        · left
          rw [if_pos heq]
          intro s' hs'
          rcases mem_cons.mp hs' with rfl | hs'
          · rw [hs, heq]
          · rw [h1 s' hs', hw]
        · right
          rw [if_neg heq]
          refine ⟨rfl, s, mem_cons_self, a, mem_cons_of_mem s ha, ?_⟩
          rw [hs, h1 a ha, hw]
          exact fun h => heq (Option.some.inj h).symm
      · right
        refine ⟨?_, b, mem_cons_of_mem s hb, c, mem_cons_of_mem s hc, hbc⟩
        obtain rfl' : w[j] = unknownDim := by simpa [hw] using h1
        rw [rfl', ite_self]
    · left
      have hnone : ∀ l : List Int64, l.length = w.length → l[j]? = none := fun l hl => getElem?_eq_none (by omega)
      intro s' hs'
      rw [hnone _ hmerged]
      rcases mem_cons.mp hs' with rfl | hs'
      · exact hnone _ hlen
      · exact hnone _ (h.lengths s' hs')

theorem congr (hmem : ∀ s, s ∈ shapes ↔ s ∈ shapes') (h : Merged shapes w) : Merged shapes' w := by
  refine ⟨fun s hs => h.lengths s ((hmem s).mpr hs), fun j => ?_⟩
  rcases h.dims j with h1 | ⟨h1, a, ha, b, hb, hab⟩
  · exact .inl fun s hs => h1 s ((hmem s).mpr hs)
  · exact .inr ⟨h1, a, (hmem a).mp ha, b, (hmem b).mp hb, hab⟩

end Merged

namespace BranchNode

variable {α : Type} {ref : OutTensor α} {tensors : List (OutTensor α)}

/-- The dimensions of tensors. -/
def dimsOf (tensors : List (OutTensor α)) : List (List Int64) := tensors.map fun t => t.shape.dims

theorem mem_dimsOf {s : List Int64} : s ∈ dimsOf tensors ↔ ∃ t ∈ tensors, t.shape.dims = s := List.mem_map

/-- Merging goes on to the end, or to a tensor of another length. -/
theorem mergeTensors_spec {pre : List (List Int64)} (hdt : ∀ t ∈ tensors, t.dataType = ref.dataType) (hne : pre ≠ [])
    (hm : Merged pre ref.shape.dims) : ∃ t, mergeTensors ref tensors = some t ∧
      (((∃ s ∈ dimsOf tensors, s.length ≠ ref.shape.dims.length) ∧ t.shape.dims = [unknownDimNum]) ∨
        Merged (pre ++ dimsOf tensors) t.shape.dims) := by
  induction tensors generalizing ref pre with
  | nil => exact ⟨ref, rfl, .inr (by simpa [dimsOf] using hm)⟩
  | cons t tensors ih =>
    rw [mergeTensors, if_neg (not_not.mpr (hdt t mem_cons_self).symm)]
    by_cases hlen : t.shape.dims.length = ref.shape.dims.length
    · rw [if_neg (show ¬t.shape.getDims.length ≠ ref.shape.getDims.length from not_not.mpr hlen)]
      obtain ⟨w, hw, hcase⟩ := @ih { ref with shape := ⟨mergeDims ref.shape.dims t.shape.dims⟩ } (t.shape.dims :: pre)
        (fun t' ht' => hdt t' (mem_cons_of_mem t ht')) (cons_ne_nil _ _) (hm.cons hne hlen)
      refine ⟨w, hw, ?_⟩
      rcases hcase with ⟨⟨s, hs, hslen⟩, hdims⟩ | hmerged
      · refine .inl ⟨⟨s, mem_cons_of_mem _ hs, ?_⟩, hdims⟩
        simpa [mergeDims, hlen] using hslen
      · refine .inr (hmerged.congr fun s => ?_)
        simp only [dimsOf, map_cons, mem_cons, mem_append]
        tauto
    · exact ⟨_, if_pos hlen, .inl ⟨⟨_, mem_cons_self, hlen⟩, rfl⟩⟩

/-- The tensors of an output are merged as one set of shapes, or have shapes of different lengths. -/
theorem mergeTensors_cases (hdt : ∀ t ∈ ref :: tensors, t.dataType = ref.dataType) : ∃ t, mergeTensors ref (ref :: tensors) =
    some t ∧
    (((∃ s ∈ dimsOf (ref :: tensors), ∃ s' ∈ dimsOf (ref :: tensors), s.length ≠ s'.length) ∧ t.shape.dims = [unknownDimNum]) ∨
      Merged (dimsOf (ref :: tensors)) t.shape.dims) := by
  obtain ⟨t, ht, hcase⟩ := mergeTensors_spec hdt (cons_ne_nil _ []) (Merged.singleton ref.shape.dims)
  refine ⟨t, ht, ?_⟩
  rcases hcase with ⟨⟨s, hs, hlen⟩, hdims⟩ | hmerged
  · exact .inl ⟨⟨s, hs, ref.shape.dims, mem_cons_self, hlen⟩, hdims⟩
  · refine .inr (hmerged.congr fun s => ?_)
    simp only [dimsOf, map_cons, mem_cons, mem_append, not_mem_nil]
    tauto

end BranchNode

/-! ## Least upper bounds -/

theorem forall₂_iff_getElem? {s t : List Int64} : List.Forall₂ (fun a b => b = a ∨ b = unknownDim) s t ↔
    s.length = t.length ∧ ∀ j : Nat, t[j]? = s[j]? ∨ t[j]? = some unknownDim := by
  rw [forall₂_iff_get]
  refine and_congr_right fun hlen => ?_
  constructor
  · intro h j
    by_cases hj : j < s.length
    · have hj' : j < t.length := hlen ▸ hj
      rw [getElem?_eq_getElem hj, getElem?_eq_getElem hj']
      simpa using h j hj hj'
    · exact .inl (by rw [getElem?_eq_none (by omega), getElem?_eq_none (by omega)])
  · intro h j h1 h2
    simpa [getElem?_eq_getElem h1, getElem?_eq_getElem h2] using h j

variable {shapes : List (List Int64)} {w : GeShape}

/-- Shapes of different lengths are below none but those of unknown rank. -/
theorem isLUB_of_lengths (h : ∃ s ∈ shapes, ∃ s' ∈ shapes, s.length ≠ s'.length) (hw : w.dims = [unknownDimNum]) :
    IsLUB {s : GeShape | s.dims ∈ shapes} w := by
  have hrank : w.UnknownRank := by simp [GeShape.UnknownRank, hw]
  refine ⟨fun s _ => .inl hrank, fun u hu => .inl ?_⟩
  obtain ⟨s, hs, s', hs', hlen⟩ := h
  by_contra hnot
  have h1 := (hu (show (⟨s⟩ : GeShape) ∈ {s : GeShape | s.dims ∈ shapes} from hs)).resolve_left hnot
  have h2 := (hu (show (⟨s'⟩ : GeShape) ∈ {s : GeShape | s.dims ∈ shapes} from hs')).resolve_left hnot
  exact hlen (h1.2.length_eq.trans h2.2.length_eq.symm)

/-- Merged shapes are the least upper bound unless an unknown rank was lost. -/
theorem isLUB_iff_of_merged (hne : shapes ≠ []) (h : Merged shapes w.dims) :
    IsLUB {s : GeShape | s.dims ∈ shapes} w ↔ ((∃ s ∈ shapes, unknownDimNum ∈ s) → w.UnknownRank) := by
  have hmem : ∀ s ∈ shapes, (⟨s⟩ : GeShape) ∈ {s : GeShape | s.dims ∈ shapes} := fun s hs => hs
  constructor
  · rintro hlub ⟨s, hs, hrank⟩
    rcases hlub.1 (hmem s hs) with hw | ⟨hnot, -⟩
    · exact hw
    · exact absurd hrank hnot
  · intro hlost
    by_cases hex : ∃ s ∈ shapes, unknownDimNum ∈ s
    · refine ⟨fun s _ => .inl (hlost hex), fun u hu => .inl ?_⟩
      obtain ⟨s, hs, hrank⟩ := hex
      rcases hu (hmem s hs) with hw | ⟨hnot, -⟩
      · exact hw
      · exact absurd hrank hnot
    · refine ⟨fun s hs => .inr ⟨fun hrank => hex ⟨s.dims, hs, hrank⟩, forall₂_iff_getElem?.mpr ⟨h.lengths s.dims hs, fun j => ?_⟩⟩,
        fun u hu => ?_⟩
      · rcases h.dims j with h1 | ⟨h1, -⟩
        · exact .inl (h1 s.dims hs).symm
        · exact .inr h1
      · by_cases hu' : u.UnknownRank
        · exact .inl hu'
        have hbelow : ∀ s ∈ shapes, s.length = u.dims.length ∧ ∀ j : Nat, u.dims[j]? = s[j]? ∨ u.dims[j]? = some unknownDim :=
          fun s hs => forall₂_iff_getElem?.mp ((hu (hmem s hs)).resolve_left hu').2
        obtain ⟨s, hs⟩ := exists_mem_of_ne_nil shapes hne
        refine .inr ⟨fun hrank => ?_, forall₂_iff_getElem?.mpr ⟨?_, fun j => ?_⟩⟩
        · obtain ⟨j, hj⟩ := mem_iff_getElem?.mp hrank
          rcases h.dims j with h1 | ⟨h1, -⟩
          · exact hex ⟨s, hs, mem_of_getElem? ((h1 s hs).trans hj)⟩
          · exact absurd (h1.symm.trans hj) (by decide)
        · exact (h.lengths s hs).symm.trans (hbelow s hs).1
        · rcases h.dims j with h1 | ⟨-, a, ha, b, hb, hab⟩
          · rw [← h1 s hs]
            exact (hbelow s hs).2 j
          · rcases (hbelow a ha).2 j with h2 | h2
            · rcases (hbelow b hb).2 j with h3 | h3
              · exact absurd (h2.symm.trans h3) hab
              · exact .inr h3
            · exact .inr h2

/-- Merged shapes are of unknown rank when all of them say so in one place. -/
theorem unknownRank_iff_of_merged (hne : shapes ≠ []) (h : Merged shapes w.dims) :
    w.UnknownRank ↔ ∃ j : Nat, ∀ s ∈ shapes, s[j]? = some unknownDimNum := by
  constructor
  · intro hrank
    obtain ⟨j, hj⟩ := mem_iff_getElem?.mp hrank
    refine ⟨j, ?_⟩
    rcases h.dims j with h1 | ⟨h1, -⟩
    · exact fun s hs => (h1 s hs).trans hj
    · exact absurd (h1.symm.trans hj) (by decide)
  · rintro ⟨j, hj⟩
    obtain ⟨s, hs⟩ := exists_mem_of_ne_nil shapes hne
    rcases h.dims j with h1 | ⟨-, a, ha, b, hb, hab⟩
    · exact mem_of_getElem? ((h1 s hs).symm.trans (hj s hs))
    · exact absurd ((hj a ha).trans (hj b hb).symm) hab

/-! ## Outputs -/

namespace BranchNode

variable {α : Type} {node : BranchNode α} {i k : Nat} {ref t t' : OutTensor α} {tensors tensors' : List (OutTensor α)}
  {refs : List (List (OutTensor α))}

/-- The tensors are all of one data type. -/
def SameType (tensors : List (OutTensor α)) : Prop := ∀ t ∈ tensors, ∀ t' ∈ tensors, t.dataType = t'.dataType

/-- The shapes of an output have different numbers of dimensions. -/
def LengthsDiffer (tensors : List (OutTensor α)) : Prop :=
  ∃ s ∈ dimsOf tensors, ∃ s' ∈ dimsOf tensors, s.length ≠ s'.length

/-- What an output is given: the dimensions its tensors agree on, or an unknown rank. -/
theorem mergeTensors_of_sameType (hsame : SameType (ref :: tensors)) : ∃ t, mergeTensors ref (ref :: tensors) = some t ∧
    (LengthsDiffer (ref :: tensors) ∧ t.shape.dims = [unknownDimNum] ∨ Merged (dimsOf (ref :: tensors)) t.shape.dims) :=
  mergeTensors_cases fun t ht => hsame t ht ref mem_cons_self

theorem not_lengthsDiffer {w : List Int64} (h : Merged (dimsOf tensors) w) : ¬LengthsDiffer tensors := by
  rintro ⟨s, hs, s', hs', hlen⟩
  exact hlen ((h.lengths s hs).trans (h.lengths s' hs').symm)

/-- An output keeps what it has got while later ones are merged. -/
theorem mergeOutputs_of_lt (hk : k < i) : (mergeOutputs node i refs).2.outputs[k]? = node.outputs[k]? := by
  induction refs generalizing node i with
  | nil => rfl
  | cons l refs ih =>
    cases l with
    | nil => exact ih (by omega)
    | cons ref tensors =>
      rw [mergeOutputs]
      split
      · rfl
      · rw [ih (by omega)]
        exact getElem?_set_ne (by omega)

/-- A run gets to the tensors of an output behind such of one data type, and gives it what they are merged to. -/
theorem mergeOutputs_at (node : BranchNode α) (i : Nat) (hsame : ∀ l ∈ refs.take (k + 1), SameType l)
    (hk : refs[k]? = some (ref :: tensors)) (hlt : i + k < node.outputs.length) : ∃ t, mergeTensors ref (ref :: tensors) = some t ∧
      (mergeOutputs node i refs).2.outputs[i + k]? = some t := by
  induction refs generalizing node i k with
  | nil => cases hk
  | cons l refs ih =>
    cases k with
    | zero =>
      obtain rfl : l = ref :: tensors := by simpa using hk
      obtain ⟨t, ht, -⟩ := mergeTensors_of_sameType (hsame (ref :: tensors) (by simp))
      refine ⟨t, ht, ?_⟩
      rw [mergeOutputs, ht]
      exact (mergeOutputs_of_lt (Nat.lt_succ_self i)).trans (getElem?_set_self hlt)
    | succ k =>
      have hsame' : ∀ l ∈ refs.take (k + 1), SameType l := fun l' hl' => hsame l' (mem_cons_of_mem l hl')
      have hadd : i + (k + 1) = i + 1 + k := by omega
      rw [hadd] at hlt ⊢
      cases l with
      | nil => exact ih node (i + 1) hsame' hk hlt
      | cons ref' tensors' =>
        obtain ⟨t, ht, -⟩ := mergeTensors_of_sameType (hsame (ref' :: tensors') (by simp))
        rw [mergeOutputs, ht]
        exact ih (node.updateOutputDesc i t) (i + 1) hsame' hk (by simpa [updateOutputDesc] using hlt)

/-- What tensors are merged to has a shape that depends on their shapes only, not on their order. -/
theorem mergeTensors_shape_eq {ref' : OutTensor α} (hsame : SameType (ref :: tensors))
    (hperm : (ref' :: tensors').Perm (ref :: tensors))
    (ht : mergeTensors ref (ref :: tensors) = some t) (ht' : mergeTensors ref' (ref' :: tensors') = some t') : t'.shape =
      t.shape := by
  have hmem : ∀ s, s ∈ dimsOf (ref' :: tensors') ↔ s ∈ dimsOf (ref :: tensors) := fun s => (hperm.map _).mem_iff
  have hsame' : SameType (ref' :: tensors') := fun a ha b hb => hsame a (hperm.mem_iff.mp ha) b (hperm.mem_iff.mp hb)
  have hdims : t'.shape.dims = t.shape.dims := by
    obtain ⟨u, hu, hcase⟩ := mergeTensors_of_sameType hsame
    obtain ⟨u', hu', hcase'⟩ := mergeTensors_of_sameType hsame'
    cases hu.symm.trans ht
    cases hu'.symm.trans ht'
    rcases hcase with ⟨hlen, hw⟩ | hm
    · rcases hcase' with ⟨-, hw'⟩ | hm'
      · exact hw'.trans hw.symm
      · exact absurd hlen (not_lengthsDiffer (hm'.congr hmem))
    · rcases hcase' with ⟨hlen', -⟩ | hm'
      · have hdiff : LengthsDiffer (ref :: tensors) := by
          obtain ⟨s, hs, s', hs', hlen⟩ := hlen'
          exact ⟨s, (hmem s).mp hs, s', (hmem s').mp hs', hlen⟩
        exact absurd hdiff (not_lengthsDiffer hm)
      · exact hm'.unique (cons_ne_nil _ _) hmem hm
  cases hs : t.shape
  cases hs' : t'.shape
  rw [hs, hs'] at hdims
  exact congrArg GeShape.mk hdims

/-- The shape that a call gives an output. -/
def writtenShape (node : BranchNode α) (refs : List (List (OutTensor α))) (i : Nat) : Option GeShape :=
  (node.updateParentNodeForBranch refs).bind fun r => r.2.outputs[i]?.map OutTensor.shape

/-- An output is given the least upper bound of the shapes of its tensors, in whatever order these come. -/
def JoinsOutput (node : BranchNode α) (refs : List (List (OutTensor α))) (i : Nat) (tensors : List (OutTensor α)) : Prop :=
  ∃ w, IsLUB {s | ∃ t ∈ tensors, t.shape = s} w ∧
    ∀ tensors', tensors'.Perm tensors → node.writtenShape (refs.set i tensors') i = some w

theorem writtenShape_eq (hbatch : node.hasBatchNum = false) (hsame : ∀ l ∈ refs.take (i + 1), SameType l)
    (hi : refs[i]? = some (ref :: tensors)) (hlt : i < node.outputs.length) :
    ∃ t, mergeTensors ref (ref :: tensors) = some t ∧ node.writtenShape refs i = some t.shape := by
  obtain ⟨t, ht, hout⟩ := mergeOutputs_at node 0 hsame hi (by omega)
  refine ⟨t, ht, ?_⟩
  rw [Nat.zero_add] at hout
  simp [writtenShape, updateParentNodeForBranch, hbatch, hout]

theorem shapes_eq : {s : GeShape | ∃ t ∈ tensors, t.shape = s} = {s : GeShape | s.dims ∈ dimsOf tensors} := by
  ext ⟨dims⟩
  simp only [Set.mem_ofPred_eq, mem_dimsOf]
  exact exists_congr fun t => and_congr_right fun _ => ⟨fun h => by rw [h], fun h => by cases hs : t.shape; rw [hs] at h; rw [← h]⟩

/-- Every order of the tensors of an output gives it the same shape. -/
theorem writtenShape_perm (hbatch : node.hasBatchNum = false) (hsame : ∀ l ∈ refs.take (i + 1), SameType l)
    (hi : refs[i]? = some tensors) (hne : tensors ≠ []) (hlt : i < node.outputs.length) (hperm : tensors'.Perm tensors) :
    node.writtenShape (refs.set i tensors') i = node.writtenShape refs i := by
  have hil : i < refs.length := (List.getElem?_eq_some_iff.mp hi).1
  have hmem : tensors ∈ refs.take (i + 1) := mem_of_getElem? (by rw [getElem?_take_of_lt (Nat.lt_succ_self i), hi])
  have htypes := hsame tensors hmem
  cases tensors with
  | nil => exact absurd rfl hne
  | cons ref tensors =>
    cases tensors' with
    | nil => exact absurd hperm.symm.eq_nil (cons_ne_nil _ _)
    | cons ref' tensors' =>
      have hsame' : ∀ l ∈ (refs.set i (ref' :: tensors')).take (i + 1), SameType l := by
        rw [take_set]
        intro l hl
        rcases mem_or_eq_of_mem_set hl with hl | rfl
        · exact hsame l hl
        · exact fun a ha b hb => htypes a (hperm.mem_iff.mp ha) b (hperm.mem_iff.mp hb)
      obtain ⟨t, ht, hw⟩ := writtenShape_eq hbatch hsame hi hlt
      obtain ⟨t', ht', hw'⟩ := writtenShape_eq hbatch hsame' (getElem?_set_self hil) hlt
      rw [hw, hw', mergeTensors_shape_eq htypes hperm ht ht']

/-- An output is given the least upper bound of its shapes exactly when no shape of unknown rank has as many numbers as the others
have dimensions, or all say in one place that the rank is unknown. -/
theorem joinsOutput_iff (hbatch : node.hasBatchNum = false) (hsame : ∀ l ∈ refs.take (i + 1), SameType l)
    (hi : refs[i]? = some tensors) (hne : tensors ≠ []) (hlt : i < node.outputs.length) : node.JoinsOutput refs i tensors ↔
      ((∃ t ∈ tensors, t.shape.UnknownRank) → LengthsDiffer tensors ∨
        ∃ j : Nat, ∀ t ∈ tensors, t.shape.dims[j]? = some unknownDimNum) := by
  have hmem : tensors ∈ refs.take (i + 1) := mem_of_getElem? (by rw [getElem?_take_of_lt (Nat.lt_succ_self i), hi])
  obtain ⟨t, hw, hcase⟩ : ∃ t : OutTensor α, node.writtenShape refs i = some t.shape ∧
      (LengthsDiffer tensors ∧ t.shape.dims = [unknownDimNum] ∨ Merged (dimsOf tensors) t.shape.dims) := by
    cases tensors with
    | nil => exact absurd rfl hne
    | cons ref tensors =>
      obtain ⟨t, ht, hcase⟩ := mergeTensors_of_sameType (hsame _ hmem)
      obtain ⟨t', ht', hw⟩ := writtenShape_eq hbatch hsame hi hlt
      cases ht.symm.trans ht'
      exact ⟨t, hw, hcase⟩
  have hdimsne : dimsOf tensors ≠ [] := by simpa [dimsOf] using hne
  have hjoins : node.JoinsOutput refs i tensors ↔ IsLUB {s : GeShape | s.dims ∈ dimsOf tensors} t.shape := by
    rw [JoinsOutput, shapes_eq]
    constructor
    · rintro ⟨w, hlub, hall⟩
      have hself := hall tensors (List.Perm.refl _)
      rw [writtenShape_perm hbatch hsame hi hne hlt (List.Perm.refl _), hw] at hself
      rwa [Option.some.inj hself]
    · exact fun hlub => ⟨t.shape, hlub, fun tensors' hperm => (writtenShape_perm hbatch hsame hi hne hlt hperm).trans hw⟩
  rw [hjoins]
  rcases hcase with ⟨hlen, hdims⟩ | hm
  · exact iff_of_true (isLUB_of_lengths hlen hdims) fun _ => .inl hlen
  · have hrank : (∃ s ∈ dimsOf tensors, unknownDimNum ∈ s) ↔ ∃ t ∈ tensors, t.shape.UnknownRank := by simp
      [dimsOf, GeShape.UnknownRank]
    have hplace : (∃ j : Nat, ∀ s ∈ dimsOf tensors, s[j]? = some unknownDimNum) ↔
        ∃ j : Nat, ∀ t ∈ tensors, t.shape.dims[j]? = some unknownDimNum := by simp [dimsOf]
    rw [isLUB_iff_of_merged hdimsne hm, unknownRank_iff_of_merged hdimsne hm, hrank, hplace]
    exact imp_congr_right fun _ => ⟨.inr, fun h => h.resolve_left (not_lengthsDiffer hm)⟩

/-- A tensor of a shape. -/
def floatTensor (dims : List Int64) : OutTensor Unit := ⟨⟨dims⟩, .float, ()⟩

/-- A node with one output, which has a shape of one dimension. -/
def oneOutput : BranchNode Unit := ⟨false, [floatTensor [1]]⟩

theorem joinsOutput_two : oneOutput.JoinsOutput [[floatTensor [2], floatTensor [3]]] 0 [floatTensor [2], floatTensor [3]] ↔
    ((∃ t ∈ [floatTensor [2], floatTensor [3]], t.shape.UnknownRank) → LengthsDiffer [floatTensor [2], floatTensor [3]] ∨
      ∃ j : Nat, ∀ t ∈ [floatTensor [2], floatTensor [3]], t.shape.dims[j]? = some unknownDimNum) :=
  joinsOutput_iff rfl (by simp [SameType, floatTensor]) rfl (by simp) (by decide)

/-- A shape of unknown rank and one of one dimension give one unknown dimension. -/
theorem joinsOutput_false :
    ¬oneOutput.JoinsOutput [[floatTensor [-2], floatTensor [3]]] 0 [floatTensor [-2], floatTensor [3]] := by
  rintro ⟨w, hlub, hall⟩
  obtain rfl : w = ⟨[-1]⟩ := Option.some.inj ((hall _ (List.Perm.refl _)).symm.trans (by rfl))
  have hle : (⟨[-2]⟩ : GeShape) ≤ ⟨[-1]⟩ := hlub.1 ⟨_, mem_cons_self, rfl⟩
  rcases hle with h | ⟨h, -⟩
  · exact absurd h (by simp [GeShape.UnknownRank, unknownDimNum])
  · exact h (by simp [GeShape.UnknownRank, unknownDimNum])

end BranchNode

end Metadef
