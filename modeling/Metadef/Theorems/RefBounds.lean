import Metadef.Theorems.RefClasses

/-!
# Reference relations within bounds

The indexes that reference relations are built by come from attributes. One that is too large is refused; one that is negative is
not, nor is a loop with more inputs than there are classes, and an index that is missing is taken for the first.
-/

namespace Metadef

open List Option RefClassesAux

open RefRelations RefLists

/-! ## Indexes -/

namespace RefBounds

/-- An index is one of the first. -/
def InRange (m : Nat) (i : Int) : Prop := 0 ≤ i ∧ i < m

instance (m : Nat) (i : Int) : Decidable (InRange m i) := inferInstanceAs (Decidable (_ ∧ _))

/-- Nothing negative is met before something that does not fit. -/
def NoneNegative {ε : Type} (fits negative : ε → Prop) (items : List ε) : Prop :=
  ∀ before e after, items = before ++ e :: after → (∀ b ∈ before, fits b) → ¬negative e

section

variable (h : Heap) (x : RefIndexes) (g : GraphId) (w : NodeId)

/-- The inputs of the outputs of the subgraphs of a node. -/
def netInputs : List (NodeId × AnchorId) := (netoutputs h g w).flatMap fun net => (h.node net).inDataAnchors.map fun a => (net, a)

/-- The index an input of an output names. -/
def indexOf (e : NodeId × AnchorId) : Option Int := x.ofInput (h.node e.1).op (h.anchor e.2).idx.toNat

/-- An input of an output has a tensor. -/
def HasTensor (e : NodeId × AnchorId) : Prop := (h.desc e.1).mutableInputDesc (h.anchor e.2).idx.toNat ≠ none

/-- A data node names an index for which there is a class. -/
def DataFits (d : NodeId) : Prop := ∃ i, x.ofNode (h.node d).op = some i ∧ InRange (maxElemNum h g w) i

/-- An input has a tensor, and there is a class for the index it names, if it names one. -/
def InputFits (e : NodeId × AnchorId) : Prop := HasTensor h e ∧ ∀ i, indexOf h x e = some i → InRange (maxElemNum h g w) i

/-- No index of a node is refused. -/
structure Accepted : Prop where
  data : ∀ d ∈ dataNodes h g w, DataFits h x g w d
  inputs : ∀ e ∈ netInputs h g w, InputFits h x g w e

/-- A data node names a negative index, and so does an input of an output that has a tensor. -/
def DataNegative (d : NodeId) : Prop := ∃ i, x.ofNode (h.node d).op = some i ∧ i < 0
def InputNegative (e : NodeId × AnchorId) : Prop := HasTensor h e ∧ ∃ i, indexOf h x e = some i ∧ i < 0

/-- No index is negative that is met before one is refused. A loop has no more inputs than there are classes, and where data feeds its
output both name one of them. -/
structure IndexesFit : Prop where
  data : (∀ d ∈ dataNodes h g w, (x.ofNode (h.node d).op).isSome) →
    NoneNegative (DataFits h x g w) (DataNegative h x) (dataNodes h g w).reverse
  inputs : (∀ d ∈ dataNodes h g w, DataFits h x g w d) → NoneNegative (InputFits h x g w) (InputNegative h x) (netInputs h g w)
  loop : Accepted h x g w → Node.getType h w = "While" → (h.node w).inDataAnchors.length ≤ maxElemNum h g w ∧
    ∀ net, outputRead h x g w = some net → ∀ a ∈ (h.node net).inDataAnchors, ∀ b, InDataAnchor.getPeerOutAnchor h a = some b →
      Node.getType h (h.owner b) = "Data" →
        (∃ d, x.ofNode (h.node (h.owner b)).op = some d ∧ InRange (h.node w).inDataAnchors.length d) ∧
          ∃ n, indexOf h x (net, a) = some n ∧ InRange (h.node w).inDataAnchors.length n

/-- The nodes up to the first that is refused fit. -/
def FitAlong : List NodeId → Prop
  | [] => True
  | w :: nodes => ((h.desc w).subgraphInstanceNames ≠ [] → IndexesFit h x g w) ∧
      (((h.desc w).subgraphInstanceNames ≠ [] → Accepted h x g w) → FitAlong nodes)

/-- Where the classes of two indexes are joined, the attributes of the data and of the input name them. -/
def MergesNamed : Prop :=
  IsLoop h w → ∀ net, outputRead h x g w = some net → ∀ a ∈ (h.node net).inDataAnchors, ∀ t, tiedIndexes h x net a = some t →
    (∃ b, InDataAnchor.getPeerOutAnchor h a = some b ∧ x.ofNode (h.node (h.owner b)).op = some t.1) ∧
      HasTensor h (net, a) ∧ indexOf h x (net, a) = some t.2

/-- Each node that is related, up to the first that is not, joins only what is named. -/
def NamedAlong (fuel : Nat) : List NodeId → Prop
  | [] => True
  | w :: nodes => ∀ refs, nodeRefs h x fuel g w = .ok refs → MergesNamed h x g w ∧ NamedAlong fuel nodes

end

end RefBounds

namespace RefBoundsAux

open RefBounds RefListsAux

variable {h : Heap} {x : RefIndexes} {g : GraphId} {w : NodeId}

/-! ## Where a fold ends -/

variable {ε φ α : Type} {m : Nat} {i : Int} {a : α} {f : RefFault} {nodes : List NodeId}
  {e : NodeId × AnchorId} {desc : GeTensorDesc} {classes : List (List (NodeId × Nat))}
  {d net : NodeId} {items : List ε} {fault : ε → Option RefFault} {fits negative : ε → Prop}

/-- A fold ends at the first item that faults. -/
theorem foldlM_ends {σ : Type} {step : σ → ε → Except φ σ} {I : σ → Prop} (fault : ε → Option φ)
    (hok : ∀ s e, I s → fault e = none → ∃ s', step s e = .ok s' ∧ I s')
    (hfault : ∀ s e f, I s → fault e = some f → step s e = .error f) (items : List ε) : ∀ s, I s →
      (items.findSome? fault = none → ∃ s', items.foldlM step s = .ok s') ∧
        ∀ f, items.findSome? fault = some f → items.foldlM step s = .error f := by
  induction items with
  | nil => exact fun s _ => ⟨fun _ => ⟨s, rfl⟩, nofun⟩
  | cons e items ih =>
    intro s hs
    rw [foldlM_cons, findSome?_cons]
    cases he : fault e with
    | none =>
      obtain ⟨s', hs', hI⟩ := hok s e hs he
      rw [hs']
      exact ih s' hI
    | some f =>
      rw [hfault s e f hs he]
      exact ⟨nofun, fun f' hf => congrArg Except.error (Option.some.inj hf)⟩

/-- The fault of an index. -/
def indexFault (m : Nat) (i : Int) : Option RefFault :=
  if (m : Int) ≤ i then some .failed else if i < 0 then some .outOfRange else none

theorem indexFault_eq_none : indexFault m i = none ↔ InRange m i := by
  unfold indexFault InRange
  split
  next => simp; omega
  next =>
    split
    next => simp; omega
    next => simp; omega

theorem indexFault_outOfRange : indexFault m i = some .outOfRange ↔ i < 0 := by
  unfold indexFault
  split
  next => simp; omega
  next =>
    split
    next hneg => simp [hneg]
    next hneg => simp [hneg]

theorem classify_ok {classes : List (List α)} (hm : classes.length = m)
    (hi : indexFault m i = none) : ∃ classes', classify classes i a = .ok classes' ∧ classes'.length = m := by
  obtain ⟨hle, hlt⟩ := indexFault_eq_none.mp hi
  refine ⟨classes.modify i.toNat (· ++ [a]), ?_, (length_modify ..).trans hm⟩
  unfold classify
  rw [if_neg (by omega), if_neg (by omega)]

theorem classify_fault {classes : List (List α)} (hm : classes.length = m)
    (hi : indexFault m i = some f) : classify classes i a = .error f := by
  unfold indexFault at hi
  unfold classify
  rw [hm]
  split at hi
  next hle => rw [if_pos hle]; exact congrArg Except.error (Option.some.inj hi)
  next hle =>
    split at hi
    next hneg => rw [if_neg hle, if_pos hneg]; exact congrArg Except.error (Option.some.inj hi)
    next => cases hi

/-! ## Classifying -/

/-- Data nodes are classified, or the first fault from the back ends it. -/
theorem processSubgraphDataNodes_ends (hall : ∀ d ∈ nodes, (x.ofNode (h.node d).op).isSome) :
    let fault := fun d => indexFault m ((x.ofNode (h.node d).op).getD 0)
    (nodes.reverse.findSome? fault = none → ∃ classes, processSubgraphDataNodes h x nodes (List.replicate m []) = .ok classes) ∧
      ∀ f, nodes.reverse.findSome? fault = some f → processSubgraphDataNodes h x nodes (List.replicate m []) = .error f := by
  have hany : ¬(nodes.any fun data => (x.ofNode (h.node data).op).isNone) := by
    rw [Bool.not_eq_true, List.any_eq_false]
    intro d hd
    simpa [isSome_iff_ne_none] using hall d hd
  unfold processSubgraphDataNodes
  rw [if_neg hany]
  exact foldlM_ends (I := fun classes => classes.length = m) _ (fun _ _ hm hi => classify_ok hm hi)
    (fun _ _ _ hm hi => classify_fault hm hi) nodes.reverse _ (length_replicate ..)

/-- The fault of an input of an output. -/
def inputFault (h : Heap) (x : RefIndexes) (m : Nat) (e : NodeId × AnchorId) : Option RefFault :=
  match (h.desc e.1).mutableInputDesc (h.anchor e.2).idx.toNat with
  | none => some .failed
  | some _ => (indexOf h x e).bind (indexFault m)

theorem inputFault_of_none
    (hdesc : (h.desc e.1).mutableInputDesc (h.anchor e.2).idx.toNat = none) : inputFault h x m e = some .failed := by
  unfold inputFault
  rw [hdesc]

theorem inputFault_of_some (hdesc : (h.desc e.1).mutableInputDesc (h.anchor e.2).idx.toNat = some desc) :
    inputFault h x m e = (indexOf h x e).bind (indexFault m) := by
  unfold inputFault
  rw [hdesc]

theorem classifyInput_of_none (hdesc : (h.desc e.1).mutableInputDesc (h.anchor e.2).idx.toNat = none) :
    classifyInput h x e.1 classes e.2 = .error .failed := by
  unfold classifyInput
  simp only [hdesc]

theorem classifyInput_of_some (hdesc : (h.desc e.1).mutableInputDesc (h.anchor e.2).idx.toNat = some desc) :
    classifyInput h x e.1 classes e.2 =
      (indexOf h x e).elim (.ok classes) fun refO => classify classes refO (e.1, (h.anchor e.2).idx.toNat) := by
  unfold classifyInput indexOf
  cases hi : x.ofInput (h.node e.1).op (h.anchor e.2).idx.toNat with
  | none => simp only [hdesc, hi, elim_none]
  | some refO => simp only [hdesc, hi, elim_some]

theorem classifyInput_ok (hm : classes.length = m)
    (he : inputFault h x m e = none) : ∃ classes', classifyInput h x e.1 classes e.2 = .ok classes' ∧ classes'.length = m := by
  cases hdesc : (h.desc e.1).mutableInputDesc (h.anchor e.2).idx.toNat with
  | none => exact absurd ((inputFault_of_none hdesc).symm.trans he) nofun
  | some _ =>
    rw [inputFault_of_some hdesc] at he
    rw [classifyInput_of_some hdesc]
    cases hi : indexOf h x e with
    | none => exact ⟨classes, rfl, hm⟩
    | some i =>
      rw [hi] at he
      exact classify_ok hm he

theorem classifyInput_fault
    (hm : classes.length = m) (he : inputFault h x m e = some f) : classifyInput h x e.1 classes e.2 = .error f := by
  cases hdesc : (h.desc e.1).mutableInputDesc (h.anchor e.2).idx.toNat with
  | none =>
    rw [classifyInput_of_none hdesc]
    exact congrArg Except.error (Option.some.inj ((inputFault_of_none hdesc).symm.trans he))
  | some _ =>
    rw [inputFault_of_some hdesc] at he
    obtain ⟨i, hi, hf⟩ := bind_eq_some_iff.mp he
    rw [classifyInput_of_some hdesc, hi]
    exact classify_fault hm hf

theorem processSubgraphNetoutput_eq (nets : List NodeId) (classes : List (List (NodeId × Nat))) :
    processSubgraphNetoutput h x nets classes =
      (nets.flatMap fun net => (h.node net).inDataAnchors.map fun a => (net, a)).foldlM
        (fun classes e => classifyInput h x e.1 classes e.2) classes := by
  unfold processSubgraphNetoutput
  induction nets generalizing classes with
  | nil => rfl
  | cons net nets ih =>
    rw [foldlM_cons, flatMap_cons, foldlM_append, foldlM_map]
    exact bind_congr fun classes => ih classes

/-- The inputs are classified, or the first fault ends it. -/
theorem processSubgraphNetoutput_ends (m : Nat) : ((netInputs h g w).findSome? (inputFault h x m) = none →
      ∃ classes, processSubgraphNetoutput h x (netoutputs h g w) (List.replicate m []) = .ok classes) ∧
    ∀ f, (netInputs h g w).findSome? (inputFault h x m) = some f →
      processSubgraphNetoutput h x (netoutputs h g w) (List.replicate m []) = .error f := by
  rw [processSubgraphNetoutput_eq]
  exact foldlM_ends (I := fun classes => classes.length = m) _ (fun _ _ hm he => classifyInput_ok hm he)
    (fun _ _ _ hm he => classifyInput_fault hm he) _ _ (length_replicate ..)

theorem dataFault_eq_none (hd : (x.ofNode (h.node d).op).isSome) :
    indexFault (maxElemNum h g w) ((x.ofNode (h.node d).op).getD 0) = none ↔ DataFits h x g w d := by
  obtain ⟨i, hi⟩ := isSome_iff_exists.mp hd
  rw [indexFault_eq_none, DataFits, hi]
  simp

theorem dataFault_outOfRange : indexFault m ((x.ofNode (h.node d).op).getD 0) = some .outOfRange ↔ DataNegative h x d := by
  unfold DataNegative
  rw [indexFault_outOfRange]
  cases x.ofNode (h.node d).op <;> simp

theorem inputFault_eq_none : inputFault h x (maxElemNum h g w) e = none ↔ InputFits h x g w e := by
  unfold inputFault InputFits HasTensor
  split
  next hdesc => simp [hdesc]
  next _ hdesc =>
    rw [hdesc]
    cases hi : indexOf h x e with
    | none => simp
    | some i => simp [indexFault_eq_none]

theorem inputFault_outOfRange : inputFault h x m e = some .outOfRange ↔ InputNegative h x e := by
  unfold inputFault InputNegative HasTensor
  split
  next hdesc => simp [hdesc]
  next _ hdesc => simp [hdesc, bind_eq_some_iff, indexFault_outOfRange]

/-- The first fault is not an access out of range exactly when nothing negative is met before it. -/
theorem findSome_ne_outOfRange
    (hfits : ∀ e ∈ items, fault e = none ↔ fits e) (hneg : ∀ e ∈ items, fault e = some .outOfRange ↔ negative e) :
    items.findSome? fault ≠ some .outOfRange ↔ NoneNegative fits negative items := by
  rw [ne_eq, findSome?_eq_some_iff]
  constructor
  · rintro hnone before e after rfl hbefore he
    exact hnone ⟨before, e, after, rfl, (hneg e (by simp)).mpr he, fun b hb => (hfits b (by simp [hb])).mpr (hbefore b hb)⟩
  · rintro hall ⟨before, e, after, rfl, he, hbefore⟩
    exact hall before e after rfl (fun b hb => (hfits b (by simp [hb])).mp (hbefore b hb)) ((hneg e (by simp)).mp he)

/-! ## Loops -/

/-- Among items taken one by one, the first that faults ends it. -/
theorem mapM_bind_of_fault {β γ : Type} {f : α → Except φ β} {p : α → Prop} {fault : φ} {k : List β → Except φ γ}
    (hok : ∀ a, p a → ∃ b, f a = .ok b) (hfault : ∀ a, ¬p a → f a = .error fault) {l : List α} (hl : ∃ a ∈ l, ¬p a) :
    l.mapM f >>= k = .error fault := by
  have hmap : l.mapM f = .error fault := by
    induction l with
    | nil => simp at hl
    | cons a l ih =>
      rw [mapM_cons]
      by_cases ha : p a
      · obtain ⟨b, hb⟩ := hok a ha
        obtain ⟨c, hc, hpc⟩ := hl
        have hc : c ∈ l := (mem_cons.mp hc).resolve_left fun h => hpc (h ▸ ha)
        rw [hb, ih ⟨c, hc, hpc⟩]
        rfl
      · rw [hfault a ha]
        rfl
  rw [hmap]
  rfl

/-- Both indexes of a tie have a class. -/
def TieFits (m : Nat) (t : Int × Int) : Prop := InRange m t.1 ∧ InRange m t.2

instance (m : Nat) (t : Int × Int) : Decidable (TieFits m t) := inferInstanceAs (Decidable (_ ∧ _))

theorem foldlM_joinClasses_ends (ts : List (Int × Int)) (m : Nat) (lists : List (List RefCell)) (hm : lists.length = m) :
    ((∀ t ∈ ts, TieFits m t) → ∃ refs, ts.foldlM (fun nodeRefs tie => joinClasses nodeRefs tie.1 tie.2) lists = .ok refs) ∧
      (¬(∀ t ∈ ts, TieFits m t) → ts.foldlM (fun nodeRefs tie => joinClasses nodeRefs tie.1 tie.2) lists = .error .outOfRange) := by
  have hjoin : ∀ (s : List (List RefCell)) (t : Int × Int), s.length = m →
    (if TieFits m t then none else some RefFault.outOfRange) = none →
      ∃ s', joinClasses s t.1 t.2 = .ok s' ∧ s'.length = m := by
    intro s t hs ht
    have hfits : TieFits m t := by simpa using ht
    obtain ⟨⟨h1, h2⟩, h3, h4⟩ := hfits
    unfold joinClasses
    rw [if_neg (by omega)]
    exact ⟨_, rfl, by simpa using hs⟩
  have hfault : ∀ (s : List (List RefCell)) (t : Int × Int) f, s.length = m →
      (if TieFits m t then none else some RefFault.outOfRange) = some f → joinClasses s t.1 t.2 = .error f := by
    intro s t f hs ht
    split at ht
    next => cases ht
    next hfits =>
      unfold TieFits InRange at hfits
      unfold joinClasses
      rw [if_pos (by omega)]
      exact congrArg Except.error (Option.some.inj ht)
  have hends := foldlM_ends (I := fun lists => lists.length = m) _ hjoin hfault ts lists hm
  refine ⟨fun hall => hends.1 ?_, fun hall => hends.2 _ ?_⟩
  · simpa using hall
  · simp only [not_forall] at hall
    obtain ⟨t, ht, hfits⟩ := hall
    cases hfind : ts.findSome? fun t => if TieFits m t then none else some RefFault.outOfRange with
    | none => exact absurd (findSome?_eq_none_iff.mp hfind t ht) (by simp [hfits])
    | some f =>
      obtain ⟨u, -, hu⟩ := exists_of_findSome?_eq_some hfind
      split at hu
      next => cases hu
      next => exact hu.symm

/-- A loop has its classes joined exactly when its inputs all have a class and so do both indexes of each tie. -/
theorem buildRefRelationsForWhile_ends (m : Nat) :
    let run := buildRefRelationsForWhile h x w ((List.range m).map (dataAt h x g w)) ((List.range m).map (netsAt h x g w))
    let fits := (h.node w).inDataAnchors.length ≤ m ∧ ∀ t ∈ readTies h x g w, TieFits (h.node w).inDataAnchors.length t
    (fits → ∃ refs, run = .ok refs) ∧ (¬fits → run = .error .outOfRange) := by
  intro run fits
  by_cases hm : (h.node w).inDataAnchors.length ≤ m
  · have heq : run = _ := buildRefRelationsForWhile_eq hm
    obtain ⟨hok, hfault⟩ := foldlM_joinClasses_ends (readTies h x g w) (h.node w).inDataAnchors.length
      ((List.range (h.node w).inDataAnchors.length).map (loopClass h x g w)) (by simp)
    rw [heq]
    exact ⟨fun hfits => hok hfits.2, fun hfits => hfault fun hties => hfits ⟨hm, hties⟩⟩
  · refine ⟨fun hfits => absurd hfits.1 hm, fun _ => ?_⟩
    refine mapM_bind_of_fault (p := fun i => i < m) (fun i hi => ?_) (fun i hi => ?_) ⟨m, mem_range.mpr (by omega), by simp⟩
    · simp only [getElem?_map_range, if_pos hi]
      exact ⟨_, rfl⟩
    · simp only [getElem?_map_range, if_neg hi]

/-- The output of a loop that is read is one of its body. -/
theorem outputRead_mem (hnet : outputRead h x g w = some net) : net ∈ netoutputs h g w := by
  obtain ⟨e, he, rfl⟩ := map_eq_some_iff.mp hnet
  obtain ⟨i, -, he⟩ := mem_flatMap.mp (mem_of_getLast? he)
  obtain ⟨net, hnet, he⟩ := mem_flatMap.mp he
  obtain ⟨a, -, ha⟩ := mem_filterMap.mp he
  split at ha
  next => exact Option.some.inj ha ▸ hnet
  next => cases ha

theorem mem_netInputs {a : AnchorId} (hnet : net ∈ netoutputs h g w) (ha : a ∈ (h.node net).inDataAnchors) :
    (net, a) ∈ netInputs h g w := mem_flatMap.mpr ⟨net, hnet, List.mem_map.mpr ⟨a, ha, rfl⟩⟩

/-- What an input that has a tensor ties together. -/
theorem tiedIndexes_eq_some {a : AnchorId} {t : Int × Int} (htensor : HasTensor h (net, a)) :
    tiedIndexes h x net a = some t ↔ ∃ b, InDataAnchor.getPeerOutAnchor h a = some b ∧ Node.getType h (h.owner b) = "Data" ∧
      t = ((x.ofNode (h.node (h.owner b)).op).getD 0, (indexOf h x (net, a)).getD 0) := by
  obtain ⟨desc, hdesc⟩ := ne_none_iff_exists'.mp htensor
  unfold tiedIndexes
  split
  next hpeer => simp [hpeer]
  next b hpeer =>
    simp only [hpeer, Option.some.injEq, exists_eq_left']
    split
    next hne => simp [hne]
    next heq =>
      dsimp only at hdesc
      simp only [hdesc, Option.some.injEq]
      constructor
      · rintro rfl
        exact ⟨not_not.mp heq, rfl⟩
      · rintro ⟨-, rfl⟩
        rfl

/-- What fits is not negative. -/
theorem noneNegative_of_fits (hne : ∀ e, fits e → ¬negative e) (hfits : ∀ e ∈ items, fits e) : NoneNegative fits negative items :=
  fun before e after heq _ => hne e (hfits e (by rw [heq]; simp))

theorem noneNegative_data (hdata : ∀ d ∈ dataNodes h g w, DataFits h x g w d) :
    NoneNegative (DataFits h x g w) (DataNegative h x) (dataNodes h g w).reverse := by
  refine noneNegative_of_fits (fun d ⟨i, hi, hle, _⟩ ⟨j, hj, hneg⟩ => ?_) fun d hd => hdata d (mem_reverse.mp hd)
  cases hi.symm.trans hj
  omega

theorem noneNegative_inputs (hinputs : ∀ e ∈ netInputs h g w, InputFits h x g w e) :
    NoneNegative (InputFits h x g w) (InputNegative h x) (netInputs h g w) :=
  noneNegative_of_fits (fun _ hfits ⟨_, i, hi, hneg⟩ => absurd hneg (not_lt.mpr (hfits.2 i hi).1)) hinputs

/-- A loop that is accepted is as it should be exactly when its classes can be joined and what is joined is named. -/
theorem loopFits_iff (hacc : RefBounds.Accepted h x g w) (hloop : IsLoop h w) :
    IndexesFit h x g w ↔ ((h.node w).inDataAnchors.length ≤ maxElemNum h g w ∧
      ∀ t ∈ readTies h x g w, TieFits (h.node w).inDataAnchors.length t) ∧ MergesNamed h x g w := by
  have htensor : ∀ net, outputRead h x g w = some net → ∀ a ∈ (h.node net).inDataAnchors, HasTensor h (net, a) :=
    fun net hnet a ha => (hacc.inputs _ (mem_netInputs (outputRead_mem hnet) ha)).1
  have hties : ∀ t, t ∈ readTies h x g w ↔
      ∃ net, outputRead h x g w = some net ∧ ∃ a ∈ (h.node net).inDataAnchors, tiedIndexes h x net a = some t := by
    intro t
    unfold readTies
    split
    next hnone => simp [hnone]
    next net hnet => simp [hnet, mem_filterMap]
  constructor
  · intro hfit
    obtain ⟨hlen, hfed⟩ := hfit.loop hacc hloop.2
    refine ⟨⟨hlen, fun t ht => ?_⟩, fun _ net hnet a ha t ht => ?_⟩
    · obtain ⟨net, hnet, a, ha, ht⟩ := (hties t).mp ht
      obtain ⟨b, hb, htype, rfl⟩ := (tiedIndexes_eq_some (htensor net hnet a ha)).mp ht
      obtain ⟨⟨d, hd, hdr⟩, n, hn, hnr⟩ := hfed net hnet a ha b hb htype
      rw [hd, hn]
      exact ⟨hdr, hnr⟩
    · obtain ⟨b, hb, htype, rfl⟩ := (tiedIndexes_eq_some (htensor net hnet a ha)).mp ht
      obtain ⟨⟨d, hd, -⟩, n, hn, -⟩ := hfed net hnet a ha b hb htype
      rw [hd, hn]
      exact ⟨⟨b, hb, hd⟩, htensor net hnet a ha, rfl⟩
  · rintro ⟨⟨hlen, hfits⟩, hnamed⟩
    refine ⟨fun _ => noneNegative_data hacc.data, fun _ => noneNegative_inputs hacc.inputs, fun _ _ => ⟨hlen, ?_⟩⟩
    intro net hnet a ha b hb htype
    have ht := (tiedIndexes_eq_some (x := x) (htensor net hnet a ha)).mpr ⟨b, hb, htype, rfl⟩
    obtain ⟨hdr, hnr⟩ := hfits _ ((hties _).mpr ⟨net, hnet, a, ha, ht⟩)
    obtain ⟨⟨b', hb', hd⟩, -, hn⟩ := hnamed hloop net hnet a ha _ ht
    cases hb.symm.trans hb'
    exact ⟨⟨_, hd, hdr⟩, _, hn, hnr⟩

/-! ## Nodes -/

/-- What classifying comes to, from the fault of each item. -/
theorem classified {run : Except RefFault α} (hok : items.findSome? fault = none → ∃ classes, run = .ok classes)
    (hfault : ∀ f, items.findSome? fault = some f → run = .error f) (hkind : ∀ e ∈ items, fault e ≠ some .unending)
    (hfits : ∀ e ∈ items, fault e = none ↔ fits e) (hneg : ∀ e ∈ items, fault e = some .outOfRange ↔ negative e) :
    ((∀ e ∈ items, fits e) ∧ ∃ classes, run = .ok classes) ∨
      (¬(∀ e ∈ items, fits e) ∧ NoneNegative fits negative items ∧ run = .error .failed) ∨
      (¬(∀ e ∈ items, fits e) ∧ ¬NoneNegative fits negative items ∧ run = .error .outOfRange) := by
  have hall : items.findSome? fault = none ↔ ∀ e ∈ items, fits e := by
    rw [findSome?_eq_none_iff]
    exact forall₂_congr hfits
  have hnone : items.findSome? fault ≠ some .outOfRange ↔ NoneNegative fits negative items := findSome_ne_outOfRange hfits hneg
  cases hfind : items.findSome? fault with
  | none => exact .inl ⟨hall.mp hfind, hok hfind⟩
  | some f =>
    have hnot : ¬∀ e ∈ items, fits e := fun h => by simp [hall.mpr h] at hfind
    cases f with
    | failed => exact .inr (.inl ⟨hnot, hnone.mp (by simp [hfind]), hfault _ hfind⟩)
    | outOfRange => exact .inr (.inr ⟨hnot, fun h => hnone.mpr h hfind, hfault _ hfind⟩)
    | unending =>
      obtain ⟨e, he, hf⟩ := exists_of_findSome?_eq_some hfind
      exact absurd hf (hkind e he)

theorem indexFault_ne_unending (m : Nat) (i : Int) : indexFault m i ≠ some .unending := by
  unfold indexFault
  split
  · simp
  · split <;> simp

theorem inputFault_ne_unending (m : Nat) (e : NodeId × AnchorId) : inputFault h x m e ≠ some .unending := by
  unfold inputFault
  split
  · simp
  · rw [ne_eq, bind_eq_some_iff]
    rintro ⟨i, -, hi⟩
    exact indexFault_ne_unending m i hi

theorem processSubgraphDataNodes_unnamed {classes : List (List NodeId)}
    (hall : ¬∀ d ∈ nodes, (x.ofNode (h.node d).op).isSome) : processSubgraphDataNodes h x nodes classes = .error .failed := by
  unfold processSubgraphDataNodes
  rw [if_pos]
  simp only [not_forall] at hall
  obtain ⟨d, hd, hnone⟩ := hall
  exact List.any_eq_true.mpr ⟨d, hd, by simpa using hnone⟩

/-- What relating a node that is classified comes to. -/
theorem buildRelations_ends (hacc : RefBounds.Accepted h x g w) (hnames : (h.desc w).subgraphInstanceNames ≠ []) :
    let run := buildRelationsWithFuncNodeType h x w ((List.range (maxElemNum h g w)).map (dataAt h x g w))
      ((List.range (maxElemNum h g w)).map (netsAt h x g w))
    (¬IndexesFit h x g w ∧ run = .error .outOfRange) ∨ ∃ refs, run = .ok refs ∧ (IndexesFit h x g w ↔ MergesNamed h x g w) := by
  intro run
  have hrun : run = buildRelationsWithFuncNodeType h x w _ _ := rfl
  unfold buildRelationsWithFuncNodeType at hrun
  by_cases htype : Node.getType h w = "While"
  · rw [if_neg (by simpa using htype)] at hrun
    have hfit := loopFits_iff hacc ⟨hnames, htype⟩
    obtain ⟨hok, hfault⟩ := buildRefRelationsForWhile_ends (h := h) (x := x) (g := g) (w := w) (maxElemNum h g w)
    by_cases hties : (h.node w).inDataAnchors.length ≤ maxElemNum h g w ∧
        ∀ t ∈ readTies h x g w, TieFits (h.node w).inDataAnchors.length t
    · obtain ⟨refs, hrefs⟩ := hok hties
      exact .inr ⟨refs, hrun.trans hrefs, hfit.trans (and_iff_right hties)⟩
    · exact .inl ⟨fun h => hties (hfit.mp h).1, hrun.trans (hfault hties)⟩
  · rw [if_pos htype] at hrun
    have hfit : IndexesFit h x g w :=
      ⟨fun _ => noneNegative_data hacc.data, fun _ => noneNegative_inputs hacc.inputs, fun _ h => absurd h htype⟩
    exact .inr ⟨_, hrun, iff_of_true hfit fun hloop => absurd hloop.2 htype⟩

/-- A node is refused, or accesses a vector out of range, or is related; and its indexes are as they should be exactly when nothing is
accessed out of range and what is joined is named. -/
theorem nodeRefs_ends (hroot : (h.graph g).parentGraph = none) (fuel : Nat) (hnames : (h.desc w).subgraphInstanceNames ≠ []) :
    (¬RefBounds.Accepted h x g w ∧ IndexesFit h x g w ∧ nodeRefs h x (fuel + 1) g w = .error .failed) ∨
      (¬IndexesFit h x g w ∧ nodeRefs h x (fuel + 1) g w = .error .outOfRange) ∨
      (RefBounds.Accepted h x g w ∧ ∃ refs, nodeRefs h x (fuel + 1) g w = .ok refs ∧ (IndexesFit h x g w ↔ MergesNamed h x g w)) := by
  rw [nodeRefs_eq hroot fuel hnames]
  have hsome : (∀ d ∈ dataNodes h g w, DataFits h x g w d) → ∀ d ∈ dataNodes h g w, (x.ofNode (h.node d).op).isSome := by
    intro hfits d hd
    obtain ⟨i, hi, -⟩ := hfits d hd
    simp [hi]
  by_cases hall : ∀ d ∈ dataNodes h g w, (x.ofNode (h.node d).op).isSome
  swap
  · -- a data node names no index
    refine .inl ⟨fun hacc => hall (hsome hacc.data), ⟨fun h => absurd h hall, fun h => absurd (hsome h) hall,
      fun hacc => absurd (hsome hacc.data) hall⟩, ?_⟩
    rw [processSubgraphDataNodes_unnamed hall]
    rfl
  obtain ⟨hok, hfault⟩ := processSubgraphDataNodes_ends (h := h) (x := x) (m := maxElemNum h g w) hall
  have hdata := classified hok hfault (fun _ _ => indexFault_ne_unending _ _)
    (fun d hd => dataFault_eq_none (g := g) (w := w) (hall d (mem_reverse.mp hd))) (fun _ _ => dataFault_outOfRange)
  simp only [mem_reverse] at hdata
  rcases hdata with ⟨hdata, classedData, hrun⟩ | ⟨hdata, hnone, hrun⟩ | ⟨hdata, hnone, hrun⟩
  · obtain rfl := processSubgraphDataNodes_spec hrun
    obtain ⟨hok, hfault⟩ := processSubgraphNetoutput_ends (h := h) (x := x) (g := g) (w := w) (maxElemNum h g w)
    have hinputs := classified hok hfault (fun _ _ => inputFault_ne_unending _ _) (fun _ _ => inputFault_eq_none)
      (fun _ _ => inputFault_outOfRange)
    rw [hrun]
    rcases hinputs with ⟨hinputs, classedNets, hrun⟩ | ⟨hinputs, hnone, hrun⟩ | ⟨hinputs, hnone, hrun⟩
    · obtain rfl := processSubgraphNetoutput_spec hrun
      have hacc : RefBounds.Accepted h x g w := ⟨hdata, hinputs⟩
      rw [hrun]
      exact .inr ((buildRelations_ends hacc hnames).imp_right fun hrefs => ⟨hacc, hrefs⟩)
    · refine .inl ⟨fun hacc => hinputs hacc.inputs,
        ⟨fun _ => noneNegative_data hdata, fun _ => hnone, fun hacc => absurd hacc.inputs hinputs⟩, ?_⟩
      rw [hrun]
      rfl
    · refine .inr (.inl ⟨fun hfit => hnone (hfit.inputs hdata), ?_⟩)
      rw [hrun]
      rfl
  · refine .inl ⟨fun hacc => hdata hacc.data, ⟨fun _ => hnone, fun h => absurd h hdata, fun hacc => absurd hacc.data hdata⟩, ?_⟩
    rw [hrun]
    rfl
  · refine .inr (.inl ⟨fun hfit => hnone (hfit.data hall), ?_⟩)
    rw [hrun]
    rfl

theorem along_iff (hroot : (h.graph g).parentGraph = none) (fuel : Nat) : ∀ (nodes : List NodeId) (r : RefRelations),
    (relateNodes h x (fuel + 1) g nodes r).2 ≠ some .outOfRange ∧ NamedAlong h x g (fuel + 1) nodes ↔ FitAlong h x g nodes := by
  intro nodes
  induction nodes with
  | nil => simp [relateNodes, NamedAlong, FitAlong]
  | cons w nodes ih =>
    intro r
    unfold relateNodes NamedAlong FitAlong
    by_cases hnames : (h.desc w).subgraphInstanceNames = []
    · have hloop : ¬IsLoop h w := fun hloop => hloop.1 hnames
      rw [nodeRefs_of_empty hnames]
      simp [hnames, MergesNamed, hloop, ih]
    · rcases nodeRefs_ends (x := x) hroot fuel hnames with ⟨hacc, hfit, hn⟩ | ⟨hfit, hn⟩ | ⟨hacc, refs, hn, hiff⟩
      · simp [hn, hnames, hacc, hfit]
      · simp [hn, hnames, hfit]
      · simp only [hn, Except.ok.injEq, forall_eq', ne_eq, hnames, not_false_eq_true, forall_const, hacc, hiff]
        rw [← ih (if refs.isEmpty = true then r else { r with values := r.values ++ [refs] })]
        tauto

end RefBoundsAux

open RefBounds RefBoundsAux in
/-- Relations are built for a root graph without an access out of range, and no class is joined that is not named, exactly when the
indexes of each node up to the first that is refused are as they should be. -/
theorem buildRefRelations_inRange_iff {α : Type} (x : RefIndexes) (address : NodeId → Nat) (fuel : Nat) (g : GraphId)
    (nodes : List NodeId) (r : RefRelations) (s s' : RefGraphs α) (built : RefRelations × Option RefFault)
    (hroot : (s.heap.graph g).parentGraph = none) (hnodes : ComputeGraph.getAllNodes s.heap fuel g = some nodes)
    (hb : buildRefRelations x address fuel g r s = some (built, s')) :
    built.2 ≠ some .outOfRange ∧ NamedAlong s.heap x g fuel nodes ↔ FitAlong s.heap x g nodes := by
  rw [buildRefRelations_of_root hroot, hnodes] at hb
  obtain ⟨rfl, rfl⟩ := Cmd.of_return hb
  cases fuel with
  | zero => cases hnodes
  | succ fuel =>
    have hfault : (relate s.heap x address (fuel + 1) g nodes r).2 = (relateNodes s.heap x (fuel + 1) g nodes r).2 := by
      unfold relate
      split
      next heq => rw [heq]
      next heq => rw [heq]
    rw [hfault]
    exact along_iff hroot fuel nodes r

namespace RefBoundsWitness

open RefBounds RefClassesWitness

theorem buildRefRelations_inRange_looped : (related, (none : Option RefFault)).2 ≠ some .outOfRange ∧
    NamedAlong looped.heap indexes 0 6 [0, 1, 2, 3, 4] ↔ FitAlong looped.heap indexes 0 [0, 1, 2, 3, 4] :=
  buildRefRelations_inRange_iff indexes id 6 0 [0, 1, 2, 3, 4] {} looped looped (related, none) nested_looped.root
    (by decide +kernel)
    build_looped

/-- The first data node names the index before the first. -/
def oneLess : RefIndexes where
  ofNode := fun op => some (op - 2)
  ofInput := fun _ idx => some idx

/-- A negative index is below the largest, and so is not refused. -/
theorem buildRefRelations_inRange_false :
    ¬ ∀ (x : RefIndexes) (address : NodeId → Nat) (fuel : Nat) (g : GraphId) (nodes : List NodeId) (r : RefRelations)
      (s s' : RefGraphs Unit) (built : RefRelations × Option RefFault), (s.heap.graph g).parentGraph = none →
      ComputeGraph.getAllNodes s.heap fuel g = some nodes → buildRefRelations x address fuel g r s = some (built, s') →
      built.2 ≠ some .outOfRange ∧ NamedAlong s.heap x g fuel nodes := by
  intro hall
  have hnodes : ComputeGraph.getAllNodes looped.heap 6 0 = some [0, 1, 2, 3, 4] := by decide +kernel
  have hbuilt : buildRefRelations oneLess id 6 0 {} looped = some
    (relate looped.heap oneLess id 6 0 [0, 1, 2, 3, 4] {}, looped) := by
    rw [buildRefRelations_of_root nested_looped.root, hnodes]
    rfl
  have hfault : (relate looped.heap oneLess id 6 0 [0, 1, 2, 3, 4] {}).2 = some .outOfRange := by decide +kernel
  exact (hall oneLess id 6 0 [0, 1, 2, 3, 4] {} looped looped _ nested_looped.root hnodes hbuilt).1 hfault

end RefBoundsWitness

end Metadef
