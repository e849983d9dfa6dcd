import Metadef.RuntimeInferenceContext

/-!
# A context is a map from outputs to tensors

The tables of a context hold the tensor set last for each index that was set, and a default below an index that was. A run has an
outcome when no index is minus one or the greatest, and its context is a map of what was set when no index is passed over.
-/

namespace Metadef

open List

variable {α G : Type}

namespace RuntimeInferenceContext

/-- The last call that names an output. -/
def lastSet (calls : List (SetTensorCall G)) (nodeId : Int64) (outputId : Int32) : Option (SetTensorCall G) :=
  (calls.filter fun c => c.nodeId = nodeId ∧ c.outputId = outputId).getLast?

/-- Both tables hold what the calls set, for the outputs they name and for no others. -/
structure MapOf [Inhabited G] (calls : List (SetTensorCall G)) (s : RuntimeInferenceContext G) : Prop where
  tensor : ∀ nodeId outputId t, s.getTensor nodeId outputId = .ok t ↔
    (lastSet calls nodeId outputId).map (fun c => c.tensor) = some t
  geTensor : ∀ nodeId outputId g, s.getGeTensor nodeId outputId = .ok g ↔
    (lastSet calls nodeId outputId).map (fun c => c.tensor.asGeTensorPtr) = some g

/-- The new size for an index neither overflows nor is zero. -/
def HasSize (c : SetTensorCall G) : Prop := c.outputId.toInt ≠ -1 ∧ c.outputId.toInt ≠ 2147483647

/-- An index is set together with all that are smaller. -/
def NoGaps (calls : List (SetTensorCall G)) : Prop :=
  ∀ c ∈ calls, ∀ o : Int32, 0 ≤ o.toInt → o.toInt < c.outputId.toInt → ∃ d ∈ calls, d.nodeId = c.nodeId ∧ d.outputId = o

end RuntimeInferenceContext

namespace SetTensorsAux

open RuntimeInferenceContext

/-! ## One table -/

/-- The vector of a node, empty where it has none. -/
def slots (m : OrderedMap Int64 (List α)) (n : Int64) : List α := (m.find n).getD []

/-- A vector after an index was set. -/
def written (value : α) (i : Nat) (x : α) (v : List α) : List α := (v ++ List.replicate (i + 1 - v.length) value).set i x

variable {value x : α} {v : List α} {m : OrderedMap Int64 (List α)} {n : Int64} {o : Int32} {i j : Nat}

theorem getElem?_written_self : (written value i x v)[i]? = some x := by
  have hlt : i < (v ++ List.replicate (i + 1 - v.length) value).length := by
    simp only [length_append, length_replicate]
    omega
  exact getElem?_set_self hlt

theorem getElem?_written_of_ne (h : j ≠ i) :
    (written value i x v)[j]? = if j < v.length then v[j]? else if j < i then some value else none := by
  rw [written, getElem?_set_ne h.symm, getElem?_append]
  by_cases hj : j < v.length
  · rw [if_pos hj, if_pos hj]
  · rw [if_neg hj, if_neg hj, getElem?_replicate]
    by_cases hi : j < i
    · rw [if_pos hi, if_pos (by omega)]
    · rw [if_neg hi, if_neg (by omega)]

theorem slots_assign (w : List α) (n' : Int64) : slots (m.assign n w) n' = if n' = n then w else slots m n' := by
  rw [slots, OrderedMap.find_assign]
  split
  · rfl
  · rfl

/-- An index of at least zero, as an unsigned number. -/
theorem toUInt32_of_nonneg (h : 0 ≤ o.toInt) : o.toUInt32.toNat = o.toInt.toNat :=
  Int32.toNat_toUInt32_of_le (Int32.le_iff_toInt_le.mpr h)

/-- A negative index is beyond every size there is. -/
theorem le_toUInt32_of_neg (h : o.toInt < 0) : 2147483648 ≤ o.toUInt32.toNat := by
  have hint : o.toInt = o.toBitVec.toInt := rfl
  rw [hint, BitVec.toInt_eq_toNat_cond] at h
  have hnat : o.toUInt32.toNat = o.toBitVec.toNat := rfl
  rw [hnat]
  split at h <;> omega

theorem setAt_of_lt {w : List α} (hi : i < w.length) : setAt (i : Int) x w = some (w.set i x) := by
  rw [setAt, if_pos ⟨Int.natCast_nonneg i, Int.ofNat_lt.mpr hi⟩, Int.toNat_natCast]

theorem setOutput_of_nonneg (h : 0 ≤ o.toInt) (hmax : o.toInt ≠ 2147483647) :
    setOutput value n o x m = some (true, m.assign n (written value o.toInt.toNat x (slots m n))) := by
  have hlt := o.toInt_lt
  unfold setOutput
  dsimp only
  rw [toUInt32_of_nonneg h, ← slots]
  obtain ⟨i, hi⟩ := Int.eq_ofNat_of_zero_le h
  rw [hi, Int.toNat_natCast]
  by_cases hlen : i ≥ (slots m n).length
  · have hresize : resize value ((i : Int) + 1) (slots m n) =
        some (slots m n ++ List.replicate (i + 1 - (slots m n).length) value) := by
      have hsize : ((i : Int) + 1).toNat = i + 1 := by omega
      rw [resize, if_neg (by omega), hsize, take_of_length_le (by omega)]
    rw [if_pos hlen, if_neg (by omega), hresize]
    dsimp only
    rw [setAt_of_lt (by simp only [length_append, length_replicate]; omega)]
    rfl
  · have hpad : i + 1 - (slots m n).length = 0 := by omega
    rw [if_neg hlen, setAt_of_lt (by omega), written, hpad, replicate_zero, append_nil]
    rfl

/-- A new size that would be zero leaves no place for the index. -/
theorem setOutput_of_negOne (h : o.toInt = -1) : setOutput value n o x m = none := by
  have hset : ∀ w : List α, setAt o.toInt x w = none := fun w => if_neg fun hand => by omega
  unfold setOutput
  dsimp only
  split
  · rw [if_neg (by omega), h]
    exact congrArg (Option.map _) (h ▸ hset _)
  · rw [hset]
    rfl

theorem setOutput_of_max (h : o.toInt = 2147483647) (hlen : (slots m n).length ≤ 2147483647) : setOutput value n o x m = none := by
  unfold setOutput
  dsimp only
  rw [toUInt32_of_nonneg (by omega), ← slots, h]
  rw [if_pos (by omega), if_pos (by omega)]

/-- The new size that another negative number becomes is one no vector has. -/
theorem setOutput_of_lt (h : o.toInt < -1) (hlen : (slots m n).length ≤ 2147483647) :
    setOutput value n o x m = some (false, m.assign n (slots m n)) := by
  have hneg := le_toUInt32_of_neg (o := o) (by omega)
  unfold setOutput
  dsimp only
  rw [← slots, if_pos (by omega), if_neg (by omega), resize, if_pos (by omega)]

theorem getOutput_eq_ok : getOutput m n o = .ok x ↔ 0 ≤ o.toInt ∧ (slots m n)[o.toInt.toNat]? = some x := by
  have hzero : o < 0 ↔ o.toInt < 0 := Int32.lt_iff_toInt_lt
  unfold getOutput slots
  by_cases hneg : o < 0
  · rw [if_pos hneg]
    exact iff_of_false nofun fun hand => absurd (hzero.mp hneg) (Int.not_lt.mpr hand.1)
  · have hnonneg : 0 ≤ o.toInt := Int.not_lt.mp fun h => hneg (hzero.mpr h)
    rw [if_neg hneg, toUInt32_of_nonneg hnonneg]
    cases m.find n with
    | none => simp
    | some v =>
      simp only [Option.getD_some]
      cases v[o.toInt.toNat]? with
      | none => simp
      | some y => simp [hnonneg]

/-! ## What a table holds -/

variable {f : SetTensorCall G → α} {calls rest : List (SetTensorCall G)} {c : SetTensorCall G}

/-- A table holds for each index what was set last, or the default where only a greater one was set. -/
def Holds (f : SetTensorCall G → α) (value : α) (calls : List (SetTensorCall G)) (m : OrderedMap Int64 (List α)) : Prop :=
  ∀ (n : Int64) (o : Int32), 0 ≤ o.toInt →
    ((∃ c ∈ calls, c.nodeId = n ∧ o.toInt ≤ c.outputId.toInt) →
      (slots m n)[o.toInt.toNat]? = some (((lastSet calls n o).map f).getD value)) ∧
    ((∀ c ∈ calls, c.nodeId = n → c.outputId.toInt < o.toInt) → (slots m n)[o.toInt.toNat]? = none)

theorem holds_nil : Holds f value [] [] :=
  fun _ _ _ => ⟨fun ⟨_, hc, _⟩ => absurd hc not_mem_nil, fun _ => rfl⟩

theorem lastSet_append_of_ne (h : ¬ (c.nodeId = n ∧ c.outputId = o)) : lastSet (calls ++ [c]) n o = lastSet calls n o := by
  rw [lastSet, filter_append, filter_singleton, decide_eq_false h]
  exact congrArg List.getLast? (append_nil _)

theorem lastSet_append_self : lastSet (calls ++ [c]) c.nodeId c.outputId = some c := by
  rw [lastSet, filter_append, filter_singleton, decide_eq_true ⟨rfl, rfl⟩]
  exact getLast?_concat

theorem lastSet_eq_none : lastSet calls n o = none ↔ ∀ c ∈ calls, c.nodeId = n → c.outputId ≠ o := by
  simp [lastSet]

/-- Every vector has a size that an index can have. -/
theorem Holds.length_le (h : Holds f value calls m) (hmax : ∀ c ∈ calls, c.outputId.toInt < 2147483647) (n : Int64) :
    (slots m n).length ≤ 2147483647 := by
  have hnone := (h n (2147483647 : Int32) (by decide)).2 fun c hc _ => hmax c hc
  exact List.getElem?_eq_none_iff.mp hnone

/-- Setting an output keeps what a table holds. -/
theorem Holds.set (h : Holds f value calls m) (c : SetTensorCall G) (hc : 0 ≤ c.outputId.toInt) :
    Holds f value (calls ++ [c]) (m.assign c.nodeId (written value c.outputId.toInt.toNat (f c) (slots m c.nodeId))) := by
  intro n o ho
  obtain ⟨hreached, hbeyond⟩ := h n o ho
  rw [slots_assign]
  by_cases hn : n = c.nodeId
  · subst hn
    rw [if_pos rfl]
    by_cases heq : c.outputId = o
    · subst heq
      rw [getElem?_written_self, lastSet_append_self]
      exact ⟨fun _ => rfl, fun hlt => absurd (hlt c (by simp) rfl) (Int.lt_irrefl _)⟩
    · have hne : o.toInt ≠ c.outputId.toInt := fun hint => heq (Int32.toInt_inj.mp hint.symm)
      rw [getElem?_written_of_ne (by omega), lastSet_append_of_ne fun hand => heq hand.2]
      by_cases hold : ∃ d ∈ calls, d.nodeId = c.nodeId ∧ o.toInt ≤ d.outputId.toInt
      · have hsome := hreached hold
        obtain ⟨d, hd, hnode, hle⟩ := hold
        rw [if_pos (List.getElem?_eq_some_iff.mp hsome).1]
        exact ⟨fun _ => hsome, fun hlt => absurd (hlt d (by simp [hd]) hnode) (Int.not_lt.mpr hle)⟩
      · have hlast : lastSet calls c.nodeId o = none :=
          lastSet_eq_none.mpr fun d hd hnode hout => hold ⟨d, hd, hnode, Int.le_of_eq (congrArg Int32.toInt hout.symm)⟩
        have hnone := hbeyond fun d hd hnode => Int.not_le.mp fun hle => hold ⟨d, hd, hnode, hle⟩
        rw [if_neg (Nat.not_lt.mpr (List.getElem?_eq_none_iff.mp hnone)), hlast]
        constructor
        · rintro ⟨d, hd, hnode, hle⟩
          rcases mem_append.mp hd with hd | hd
          · exact absurd ⟨d, hd, hnode, hle⟩ hold
          · obtain rfl := mem_singleton.mp hd
            rw [if_pos (by omega)]
            rfl
        · intro hlt
          rw [if_neg]
          have := hlt c (by simp) rfl
          omega
  · rw [if_neg hn, lastSet_append_of_ne fun hand => hn hand.1.symm]
    constructor
    · rintro ⟨d, hd, hnode, hle⟩
      refine hreached ⟨d, ?_, hnode, hle⟩
      rcases mem_append.mp hd with hd | hd
      · exact hd
      · obtain rfl := mem_singleton.mp hd
        exact absurd hnode.symm hn
    · exact fun hlt => hbeyond fun d hd => hlt d (by simp [hd])

/-- A vector that is entered as it was changes nothing. -/
theorem Holds.touch (h : Holds f value calls m) (n : Int64) : Holds f value calls (m.assign n (slots m n)) := by
  intro n' o ho
  have hsame : slots (m.assign n (slots m n)) n' = slots m n' := by
    rw [slots_assign]
    split
    next heq => rw [heq]
    next => rfl
  rw [hsame]
  exact h n' o ho

/-! ## What is read -/

theorem exists_of_lastSet {d : SetTensorCall G} (h : lastSet calls n o = some d) : d ∈ calls ∧ d.nodeId = n ∧ d.outputId = o := by
  have hmem := mem_filter.mp (mem_of_getLast? h)
  exact ⟨hmem.1, of_decide_eq_true hmem.2⟩

/-- Without gaps a table gives what was set last. -/
theorem Holds.read (h : Holds f value calls m) (hnonneg : ∀ c ∈ calls, 0 ≤ c.outputId.toInt) (hgaps : NoGaps calls) :
    getOutput m n o = .ok x ↔ (lastSet calls n o).map f = some x := by
  rw [getOutput_eq_ok]
  cases hlast : lastSet calls n o with
  | some d =>
    obtain ⟨hd, hnode, rfl⟩ := exists_of_lastSet hlast
    have hslot := (h n d.outputId (hnonneg d hd)).1 ⟨d, hd, hnode, Int.le_refl _⟩
    rw [hslot, hlast]
    exact and_iff_right (hnonneg d hd)
  | none =>
    have hnot := lastSet_eq_none.mp hlast
    refine iff_of_false (fun hand => ?_) fun hsome => by cases hsome
    have hslot := (h n o hand.1).2 fun c hc hnode => ?_
    · rw [hslot] at hand
      cases hand.2
    · by_contra hle
      -- an index below one that is set is set itself
      by_cases heq : c.outputId = o
      · exact hnot c hc hnode heq
      · have hne : c.outputId.toInt ≠ o.toInt := fun hint => heq (Int32.toInt_inj.mp hint)
        obtain ⟨d, hd, hnode', hout⟩ := hgaps c hc o hand.1 (by omega)
        exact hnot d hd (hnode'.trans hnode) hout

/-- A table gives something for every index below one that was set. -/
theorem Holds.gap (h : Holds f value calls m) (hc : c ∈ calls) (ho : 0 ≤ o.toInt) (hlt : o.toInt < c.outputId.toInt) :
    ∃ x, getOutput m c.nodeId o = .ok x :=
  ⟨_, getOutput_eq_ok.mpr ⟨ho, (h c.nodeId o ho).1 ⟨c, hc, rfl, Int.le_of_lt hlt⟩⟩⟩

/-- The calls that are accepted are those with an index of at least zero. -/
def accepted (calls : List (SetTensorCall G)) : List (SetTensorCall G) := calls.filter fun c => 0 ≤ c.outputId.toInt

theorem noGaps_accepted : NoGaps (accepted calls) ↔ NoGaps calls := by
  constructor
  · intro h c hc o ho hlt
    obtain ⟨d, hd, hnode, hout⟩ := h c (mem_filter.mpr ⟨hc, decide_eq_true (by omega)⟩) o ho hlt
    exact ⟨d, (mem_filter.mp hd).1, hnode, hout⟩
  · intro h c hc o ho hlt
    obtain ⟨d, hd, hnode, hout⟩ := h c (mem_filter.mp hc).1 o ho hlt
    exact ⟨d, mem_filter.mpr ⟨hd, decide_eq_true (hout ▸ ho)⟩, hnode, hout⟩

/-! ## Runs -/

variable [Inhabited G] {s : RuntimeInferenceContext G}

/-- Both tables hold what some calls set. -/
structure Tracks (calls : List (SetTensorCall G)) (s : RuntimeInferenceContext G) : Prop where
  tensors : Holds (fun c => c.tensor) default calls s.tensors
  geTensors : Holds (fun c => c.tensor.asGeTensorPtr) none calls s.geTensors
  bounded : ∀ c ∈ calls, 0 ≤ c.outputId.toInt ∧ c.outputId.toInt < 2147483647

theorem Tracks.mapOf_iff (h : Tracks calls s) : MapOf calls s ↔ NoGaps calls := by
  have hnonneg := fun c hc => (h.bounded c hc).1
  constructor
  · intro hmap c hc o ho hlt
    obtain ⟨t, ht⟩ := h.tensors.gap hc ho hlt
    obtain ⟨d, hd, -⟩ := Option.map_eq_some_iff.mp ((hmap.tensor c.nodeId o t).mp ht)
    exact ⟨d, exists_of_lastSet hd⟩
  · exact fun hgaps => ⟨fun _ _ _ => h.tensors.read hnonneg hgaps, fun _ _ _ => h.geTensors.read hnonneg hgaps⟩

/-- A call sets its output, is refused, or has no outcome. -/
theorem Tracks.step (h : Tracks calls s) (c : SetTensorCall G) :
    (HasSize c → 0 ≤ c.outputId.toInt → ∃ s', setTensor c s = some (true, s') ∧ Tracks (calls ++ [c]) s') ∧
      (HasSize c → c.outputId.toInt < 0 → ∃ s', setTensor c s = some (false, s') ∧ Tracks calls s') ∧
        (¬ HasSize c → setTensor c s = none) := by
  have hlen := h.tensors.length_le (fun d hd => (h.bounded d hd).2) c.nodeId
  refine ⟨fun hsize ho => ?_, fun hsize ho => ?_, fun hsize => ?_⟩
  · have hlt := c.outputId.toInt_lt
    refine ⟨⟨_, _⟩, ?_, h.tensors.set c ho, h.geTensors.set c ho, ?_⟩
    · rw [setTensor, setOutput_of_nonneg ho hsize.2]
      dsimp only
      rw [setOutput_of_nonneg ho hsize.2]
      rfl
    · intro d hd
      rcases mem_append.mp hd with hd | hd
      · exact h.bounded d hd
      · obtain rfl := mem_singleton.mp hd
        have hmax := hsize.2
        exact ⟨ho, by omega⟩
  · have hne := hsize.1
    refine ⟨⟨_, _⟩, ?_, h.tensors.touch c.nodeId, h.geTensors, h.bounded⟩
    rw [setTensor, setOutput_of_lt (by omega) hlen]
    rfl
  · have hone : c.outputId.toInt = -1 ∨ c.outputId.toInt = 2147483647 := by
      unfold HasSize at hsize
      omega
    rcases hone with hone | hone
    · rw [setTensor, setOutput_of_negOne hone]
    · rw [setTensor, setOutput_of_max hone hlen]

theorem setAll_run : ∀ (rest calls : List (SetTensorCall G)) (s : RuntimeInferenceContext G), Tracks calls s →
    ((∀ c ∈ rest, HasSize c) → ∃ s', setAll rest s = some (accepted rest, s') ∧ Tracks (calls ++ accepted rest) s') ∧
      (∀ c ∈ rest, ¬ HasSize c → setAll rest s = none) := by
  intro rest
  induction rest with
  | nil =>
    exact fun calls s h => ⟨fun _ => ⟨s, rfl, (append_nil calls).symm ▸ h⟩, fun _ hc => absurd hc not_mem_nil⟩
  | cons c rest ih =>
    intro calls s h
    obtain ⟨hset, hrefused, hnone⟩ := h.step c
    by_cases hsize : HasSize c
    · by_cases ho : 0 ≤ c.outputId.toInt
      · obtain ⟨s', hs', ht⟩ := hset hsize ho
        obtain ⟨hrun, hstop⟩ := ih _ s' ht
        have hcons : accepted (c :: rest) = c :: accepted rest := filter_cons_of_pos (decide_eq_true ho)
        constructor
        · intro hall
          obtain ⟨u, hu, hu'⟩ := hrun fun d hd => hall d (mem_cons_of_mem c hd)
          refine ⟨u, ?_, by rwa [hcons, append_cons]⟩
          simp [setAll, hs', hu, hcons]
        · intro d hd hd'
          rcases mem_cons.mp hd with rfl | hd
          · exact absurd hsize hd'
          · simp [setAll, hs', hstop d hd hd']
      · obtain ⟨s', hs', ht⟩ := hrefused hsize (by omega)
        obtain ⟨hrun, hstop⟩ := ih _ s' ht
        have hcons : accepted (c :: rest) = accepted rest := filter_cons_of_neg (by simpa using ho)
        constructor
        · intro hall
          obtain ⟨u, hu, hu'⟩ := hrun fun d hd => hall d (mem_cons_of_mem c hd)
          refine ⟨u, ?_, by rwa [hcons]⟩
          simp [setAll, hs', hu, hcons]
        · intro d hd hd'
          rcases mem_cons.mp hd with rfl | hd
          · exact absurd hsize hd'
          · simp [setAll, hs', hstop d hd hd']
    · have hstop : setAll (c :: rest) s = none := by simp [setAll, hnone hsize]
      exact ⟨fun hall => absurd (hall c mem_cons_self) hsize, fun _ _ _ => hstop⟩

end SetTensorsAux

open RuntimeInferenceContext SetTensorsAux in
/-- A run of calls has an outcome that maps the outputs set to the tensors set last if and only if every index has a size to grow to
and no index is passed over. -/
theorem setTensors_iff [Inhabited G] (calls : List (SetTensorCall G)) :
    (∃ accepted s, setAll calls {} = some (accepted, s) ∧ MapOf accepted s) ↔ (∀ c ∈ calls, HasSize c) ∧ NoGaps calls := by
  obtain ⟨hrun, hstop⟩ := setAll_run calls [] ({} : RuntimeInferenceContext G)
    ⟨holds_nil, holds_nil, fun _ hc => absurd hc not_mem_nil⟩
  constructor
  · rintro ⟨acc, s, hs, hmap⟩
    have hsize : ∀ c ∈ calls, HasSize c := by
      intro c hc
      by_contra hnot
      rw [hstop c hc hnot] at hs
      cases hs
    obtain ⟨s', hs', ht⟩ := hrun hsize
    obtain ⟨rfl, rfl⟩ := Prod.mk.inj (Option.some.inj (hs'.symm.trans hs))
    exact ⟨hsize, noGaps_accepted.mp (ht.mapOf_iff.mp hmap)⟩
  · rintro ⟨hsize, hgaps⟩
    obtain ⟨s, hs, ht⟩ := hrun hsize
    exact ⟨accepted calls, s, hs, ht.mapOf_iff.mpr (noGaps_accepted.mpr hgaps)⟩

namespace SetTensorsWitness

open RuntimeInferenceContext

/-- The second output of a node is set, and its first is not. -/
def passedOver : List (SetTensorCall Nat) := [{ nodeId := 5, outputId := 1, tensor := ⟨some 7⟩ }]

/-- The output passed over has a tensor. -/
theorem setTensors_false : ¬ ∀ calls : List (SetTensorCall Nat),
    ∃ accepted s, setAll calls {} = some (accepted, s) ∧ MapOf accepted s := by
  intro hall
  obtain ⟨accepted, s, hs, hmap⟩ := hall passedOver
  have hrun : setAll passedOver {} = some (passedOver, { tensors := [(5, [default, ⟨some 7⟩])], geTensors := [(5, [none, some 7])] }) :=
    rfl
  obtain ⟨rfl, rfl⟩ := Prod.mk.inj (Option.some.inj (hrun.symm.trans hs))
  have hfound := (hmap.tensor 5 0 default).mp rfl
  cases hfound

end SetTensorsWitness

end Metadef
