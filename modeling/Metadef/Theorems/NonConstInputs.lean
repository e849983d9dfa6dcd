import Metadef.OpDescUtils
import Metadef.Theorems.LinkSymmetry

/-!
# Inputs that are not constant

`GetNonConstInputsSize` takes the constants of `GetConstInputs` off, which are found behind Data nodes and Switches too, while
`GetNonConstInputIndex` and `IsNonConstInput` look at the node that feeds an input and no further.
-/

namespace Metadef

open List

open OpDescUtils

/-- The index, the number and the test of the inputs that are not constant speak of the same inputs. -/
structure NonConstViewsAgree (x : InputMarks) (h : Heap) (n : NodeId) : Prop where
  valid : ∀ k i, getNonConstInputIndex x h n k = some i → i < (h.node n).inDataAnchors.length
  counted : ∀ k, (getNonConstInputIndex x h n k).isSome = true ↔ k < getNonConstInputsSize x h n
  increasing : ∀ k k' i i', k < k' → getNonConstInputIndex x h n k = some i → getNonConstInputIndex x h n k' = some i' → i < i'
  exact : ∀ i, isNonConstInput x h n i = true ↔ ∃ k, getNonConstInputIndex x h n k = some i

/-- A Data node of a subgraph whose input in the parent graph is fed by a Const. -/
def StandsForConst (x : InputMarks) (h : Heap) (p : NodeId) : Prop :=
  Node.getType h p = "Data" ∧ ∃ parent, NodeUtils.getParentInput x h p = some parent ∧ Node.getType h parent = "Const"

/-- No input of a node is fed by a Data node that stands for a Const, or, for a MatMul, by a Switch with a constant input. -/
def NoConstBehind (x : InputMarks) (h : Heap) (n : NodeId) : Prop :=
  ∀ p ∈ Node.getInDataNodes h n, ¬StandsForConst x h p ∧
    (Node.getType h n = "MatMul" → Node.getType h p = "Switch" →
      ∀ q ∈ Node.getInDataNodes h p, Node.getType h q ≠ "Const" ∧ ¬StandsForConst x h q)

namespace NonConstInputsAux

variable {x : InputMarks} {h : Heap} {n : NodeId} {anchors : List AnchorId} {p : AnchorId → Bool}

/-! ## The loops -/

/-- The loop finds the input with the count asked for. -/
theorem countedIndex_eq (p : AnchorId → Bool) (k : Nat) : ∀ (anchors : List AnchorId) (i : Nat) (index : Option Nat),
    countedIndex h p k anchors i index =
      if i ≤ k then (((anchors.filter p).map fun a => (h.anchor a).idx.toNat)[k - i]?).or index else index := by
  intro anchors
  induction anchors with
  | nil => intro i index; simp [countedIndex]
  | cons a anchors ih =>
    intro i index
    rw [countedIndex, filter_cons]
    by_cases hp : p a = true
    · rw [if_pos hp, if_pos hp, ih]
      rcases Nat.lt_trichotomy i k with hlt | rfl | hlt
      · obtain ⟨d, hd⟩ : ∃ d, k - i = d + 1 := ⟨k - i - 1, by omega⟩
        rw [if_pos (Nat.succ_le_of_lt hlt), if_neg (Nat.ne_of_gt hlt), if_pos (Nat.le_of_lt hlt), hd, map_cons,
          getElem?_cons_succ, show k - (i + 1) = d by omega]
      · rw [if_neg (Nat.not_succ_le_self i), if_pos rfl, if_pos (Nat.le_refl i), Nat.sub_self, map_cons,
          getElem?_cons_zero, Option.some_or]
      · rw [if_neg (by omega), if_neg (Nat.ne_of_lt hlt), if_neg (by omega)]
    · rw [if_neg hp, if_neg hp, ih]

/-- The indexes of inputs are their positions from a number on. -/
def Positioned (h : Heap) (s : Nat) (anchors : List AnchorId) : Prop :=
  ∀ (j : Nat) a, anchors[j]? = some a → (h.anchor a).idx = (s + j : Nat)

theorem Positioned.head {a : AnchorId} {s : Nat} (hp : Positioned h s (a :: anchors)) : (h.anchor a).idx = s := hp 0 a rfl

theorem Positioned.tail {a : AnchorId} {s : Nat} (hp : Positioned h s (a :: anchors)) : Positioned h (s + 1) anchors :=
  fun j b hb => by
    rw [Nat.add_right_comm]
    exact hp (j + 1) b hb

/-- The indexes of the inputs that are kept are their positions. -/
theorem map_idx_filter : ∀ {anchors : List AnchorId} {s : Nat}, Positioned h s anchors →
    ((anchors.filter p).map fun a => (h.anchor a).idx.toNat) = anchors.findIdxs p s := by
  intro anchors
  induction anchors with
  | nil => exact fun _ => rfl
  | cons a anchors ih =>
    intro s hidx
    have hhead : (h.anchor a).idx.toNat = s := by rw [hidx.head, Int.toNat_natCast]
    rw [filter_cons, findIdxs_cons]
    split
    · rw [map_cons, hhead, ih hidx.tail]
    · exact ih hidx.tail

/-- The search passes over the inputs of other indexes. -/
theorem searchInput_of_ne {index : Int} : ∀ {anchors : List AnchorId}, (∀ a ∈ anchors, (h.anchor a).idx ≠ index) → ∀ ret : Bool,
    searchInput h index anchors ret = ret := by
  intro anchors
  induction anchors with
  | nil => exact fun _ _ => rfl
  | cons a anchors ih =>
    intro hne ret
    rw [searchInput, if_pos (hne a mem_cons_self)]
    exact ih (fun b hb => hne b (mem_cons_of_mem a hb)) ret

/-- The search tells whether the input at the position is fed by another node. -/
theorem searchInput_eq : ∀ {anchors : List AnchorId} {s i : Nat}, Positioned h s anchors →
    searchInput h (s + i : Nat) anchors false = anchors[i]?.any (fedByOther h) := by
  intro anchors
  induction anchors with
  | nil => exact fun _ => rfl
  | cons a anchors ih =>
    intro s i hidx
    cases i with
    | succ i =>
      rw [searchInput, if_pos (by rw [hidx.head]; omega), getElem?_cons_succ, ← ih hidx.tail, Nat.add_right_comm,
        Nat.add_assoc]
    | zero =>
      have hrest : ∀ b ∈ anchors, (h.anchor b).idx ≠ s := fun b hb => by
        obtain ⟨j, hj⟩ := mem_iff_getElem?.mp hb
        rw [hidx.tail j b hj]
        omega
      rw [Nat.add_zero, searchInput, if_neg (not_not_intro hidx.head), getElem?_cons_zero, Option.any_some, fedByOther]
      cases InDataAnchor.getPeerOutAnchor h a with
      | none => rfl
      | some peer => exact searchInput_of_ne hrest _

/-! ## The views -/

/-- What is counted among the inputs. -/
def counts (x : InputMarks) (h : Heap) (n : NodeId) (a : AnchorId) : Bool :=
  if x.anchorStatusUpdated n then x.status a = .data else fedByOther h a

variable (hs : h.Sound) (hn : n < h.nodeCount)

include hs hn

theorem positioned : Positioned h 0 (h.node n).inDataAnchors := fun j a hj => by
  rw [Nat.zero_add]
  exact hs.laid.idx n hn .inData rfl j a hj

theorem getNonConstInputIndex_eq (k : Nat) :
    getNonConstInputIndex x h n k = ((h.node n).inDataAnchors.findIdxs (counts x h n))[k]? := by
  have hloop : ∀ q : AnchorId → Bool, countedIndex h q k (h.node n).inDataAnchors 0 none =
      ((h.node n).inDataAnchors.findIdxs q)[k]? := fun q => by
    rw [countedIndex_eq, if_pos (Nat.zero_le k), map_idx_filter (positioned hs hn), Nat.sub_zero, Option.or_none]
  unfold getNonConstInputIndex counts
  split <;> exact hloop _

theorem isNonConstInput_iff (i : Nat) :
    isNonConstInput x h n i = true ↔ ∃ a, (h.node n).inDataAnchors[i]? = some a ∧ counts x h n a = true := by
  have hsearch := @searchInput_eq h _ 0 i (positioned hs hn)
  rw [Nat.zero_add] at hsearch
  unfold isNonConstInput counts
  split
  · split
    · rw [Node.getInDataAnchor, if_neg (Int.not_lt.mpr (Int.natCast_nonneg i)), Int.toNat_natCast, Option.any_eq_true]
    · rw [hsearch, Option.any_eq_true]
  · rename_i hlt
    rw [getElem?_eq_none (Nat.le_of_not_lt hlt)]
    simp

/-- The views agree when as many are counted as the number says. -/
theorem nonConstViewsAgree_iff_size :
    NonConstViewsAgree x h n ↔ (h.node n).inDataAnchors.countP (counts x h n) = getNonConstInputsSize x h n := by
  have hget := getNonConstInputIndex_eq (x := x) hs hn
  have hsome : ∀ k, (getNonConstInputIndex x h n k).isSome = true ↔ k < (h.node n).inDataAnchors.countP (counts x h n) :=
    fun k => by
    rw [hget, isSome_getElem?, length_findIdxs]
  constructor
  · intro hv
    refine Nat.le_antisymm (Nat.le_of_not_lt fun hlt => ?_) (Nat.le_of_not_lt fun hlt => ?_)
    · exact absurd ((hv.counted _).mp ((hsome _).mpr hlt)) (Nat.lt_irrefl _)
    · exact absurd ((hsome _).mp ((hv.counted _).mpr hlt)) (Nat.lt_irrefl _)
  · intro hsize
    refine ⟨fun k i hi => ?_, fun k => by rw [hsome, hsize], fun k k' i i' hlt hi hi' => ?_, fun i => ?_⟩
    · rw [hget] at hi
      have := lt_add_of_mem_findIdxs i (mem_of_getElem? hi)
      rwa [Nat.add_zero] at this
    · rw [hget] at hi hi'
      obtain ⟨hk, rfl⟩ := List.getElem?_eq_some_iff.mp hi
      obtain ⟨hk', rfl⟩ := List.getElem?_eq_some_iff.mp hi'
      exact pairwise_iff_getElem.mp pairwise_findIdxs k k' hk hk' hlt
    · rw [isNonConstInput_iff hs hn]
      simp only [hget]
      rw [← mem_iff_getElem?, mem_findIdxs_iff_exists_getElem_pos]
      constructor
      · rintro ⟨a, ha, hc⟩
        obtain ⟨hi, rfl⟩ := List.getElem?_eq_some_iff.mp ha
        exact ⟨hi, hc⟩
      · rintro ⟨hi, hc⟩
        exact ⟨_, getElem?_eq_getElem hi, hc⟩

omit hs hn

/-! ## The number -/

/-- Whether an input is fed by a Const. -/
def fedByConst (h : Heap) (a : AnchorId) : Bool :=
  match InDataAnchor.getPeerOutAnchor h a with
  | none => false
  | some peer => Node.getType h (h.owner peer) = "Const"

/-- An input is not linked, or fed by a Const, or by another node. -/
theorem countP_fedByOther : ∀ anchors : List AnchorId, anchors.countP (fedByOther h) + anchors.countP (fedByConst h) =
    (anchors.filterMap (InDataAnchor.getPeerOutAnchor h)).length := by
  intro anchors
  induction anchors with
  | nil => rfl
  | cons a anchors ih =>
    rw [countP_cons, countP_cons, fedByOther, fedByConst]
    cases hpeer : InDataAnchor.getPeerOutAnchor h a with
    | none => simpa [hpeer] using ih
    | some peer =>
      rw [filterMap_cons_some hpeer, length_cons, ← ih]
      by_cases hc : Node.getType h (h.owner peer) = "Const" <;> simp [hc] <;> omega

/-- Of lists that hold one item where a test passes, as many items as pass are there when the others are empty. -/
theorem countP_flatMap {α β : Type} {f : α → List β} {q : α → Bool} : ∀ {l : List α}, (∀ a ∈ l, q a = true → (f a).length = 1) →
    l.countP q ≤ (l.flatMap f).length ∧ (l.countP q = (l.flatMap f).length ↔ ∀ a ∈ l, q a = false → f a = []) := by
  intro l
  induction l with
  | nil => exact fun _ => ⟨Nat.le_refl _, iff_of_true rfl nofun⟩
  | cons a l ih =>
    intro hone
    obtain ⟨hle, heq⟩ := ih fun b hb => hone b (mem_cons_of_mem a hb)
    rw [flatMap_cons, length_append, countP_cons, forall_mem_cons, ← heq]
    cases hq : q a with
    | true =>
      rw [hone a mem_cons_self hq]
      simp only [if_true, Bool.true_eq_false, false_implies, true_and]
      omega
    | false =>
      rw [← length_eq_zero_iff]
      simp only [Bool.false_eq_true, if_false, true_implies]
      omega

/-- What an input that is not fed by a Const gives. -/
theorem constInputsAt_eq_nil_iff {constInputs : NodeId → List NodeId} {a : AnchorId} (hc : fedByConst h a = false) :
    constInputsAt x h constInputs n a = [] ↔ ∀ peer, InDataAnchor.getPeerOutAnchor h a = some peer →
      ¬StandsForConst x h (h.owner peer) ∧
        (Node.getType h n = "MatMul" → Node.getType h (h.owner peer) = "Switch" → constInputs (h.owner peer) = []) := by
  unfold constInputsAt
  unfold fedByConst at hc
  cases hpeer : InDataAnchor.getPeerOutAnchor h a with
  | none => exact iff_of_true rfl nofun
  | some peer =>
    rw [hpeer] at hc
    simp only [decide_eq_false_iff_not] at hc
    simp only [if_neg hc, Option.some.injEq, forall_eq']
    by_cases hswitch : Node.getType h (h.owner peer) = "Switch"
    · have hstands : ¬StandsForConst x h (h.owner peer) := fun hstands => by
        rw [hstands.1] at hswitch
        exact absurd hswitch (by decide)
      by_cases hmatmul : Node.getType h n = "MatMul"
      · simp [hswitch, hmatmul, hstands]
      · simp [hswitch, hmatmul, hstands]
    · rw [if_neg fun hboth => hswitch hboth.1]
      by_cases hdata : Node.getType h (h.owner peer) = "Data"
      · rw [if_pos hdata]
        simp only [StandsForConst, hdata, true_and]
        cases NodeUtils.getParentInput x h (h.owner peer) with
        | none => simp
        | some parent => by_cases hparent : Node.getType h parent = "Const" <;> simp [hparent]
      · simp [hdata, hswitch, StandsForConst]

theorem constInputsAt_of_const {constInputs : NodeId → List NodeId} {a : AnchorId} (hc : fedByConst h a = true) :
    (constInputsAt x h constInputs n a).length = 1 := by
  unfold fedByConst at hc
  unfold constInputsAt
  cases hpeer : InDataAnchor.getPeerOutAnchor h a with
  | none =>
    rw [hpeer] at hc
    cases hc
  | some peer =>
    rw [hpeer] at hc
    simp only [if_pos (of_decide_eq_true hc), length_singleton]

/-- A node that feeds an input. -/
theorem mem_getInDataNodes {p : NodeId} : p ∈ Node.getInDataNodes h n ↔
    ∃ a ∈ (h.node n).inDataAnchors, ∃ peer, InDataAnchor.getPeerOutAnchor h a = some peer ∧ h.owner peer = p := by
  simp only [Node.getInDataNodes, List.mem_map, mem_filterMap]
  constructor
  · rintro ⟨peer, ⟨a, ha, hpeer⟩, he⟩
    exact ⟨a, ha, peer, hpeer, he⟩
  · rintro ⟨a, ha, peer, hpeer, he⟩
    exact ⟨peer, ⟨a, ha, hpeer⟩, he⟩

theorem fedByConst_of_peer {a peer : AnchorId} (hpeer : InDataAnchor.getPeerOutAnchor h a = some peer) :
    fedByConst h a = true ↔ Node.getType h (h.owner peer) = "Const" := by
  rw [fedByConst, hpeer]
  exact decide_eq_true_iff

/-- The Switch in between has no constant input. -/
theorem switchInputs_eq_nil_iff {p : NodeId} (hp : Node.getType h p ≠ "MatMul") :
    (h.node p).inDataAnchors.flatMap (constInputsAt x h (fun _ => []) p) = [] ↔
      ∀ q ∈ Node.getInDataNodes h p, Node.getType h q ≠ "Const" ∧ ¬StandsForConst x h q := by
  rw [flatMap_eq_nil_iff]
  constructor
  · intro hnil q hq
    obtain ⟨a, ha, peer, hpeer, rfl⟩ := mem_getInDataNodes.mp hq
    have hc : fedByConst h a = false := Bool.eq_false_iff.mpr fun hc => by
      have hlen := @constInputsAt_of_const x h p (fun _ => []) a hc
      rw [hnil a ha] at hlen
      cases hlen
    refine ⟨fun htype => ?_, ((constInputsAt_eq_nil_iff hc).mp (hnil a ha) peer hpeer).1⟩
    rw [(fedByConst_of_peer hpeer).mpr htype] at hc
    cases hc
  · intro hnone a ha
    have hc : fedByConst h a = false := Bool.eq_false_iff.mpr fun hc => by
      cases hpeer : InDataAnchor.getPeerOutAnchor h a with
      | none => rw [fedByConst, hpeer] at hc; cases hc
      | some peer => exact (hnone _ (mem_getInDataNodes.mpr ⟨a, ha, peer, hpeer, rfl⟩)).1 ((fedByConst_of_peer hpeer).mp hc)
    exact (constInputsAt_eq_nil_iff hc).mpr fun peer hpeer =>
      ⟨(hnone _ (mem_getInDataNodes.mpr ⟨a, ha, peer, hpeer, rfl⟩)).2, fun hmatmul => absurd hmatmul hp⟩

/-- As many constants are found as inputs fed by a Const exactly when there is none behind. -/
theorem countP_fedByConst : (h.node n).inDataAnchors.countP (fedByConst h) ≤ (getConstInputs x h n).length ∧
    ((h.node n).inDataAnchors.countP (fedByConst h) = (getConstInputs x h n).length ↔
      ∀ p ∈ Node.getInDataNodes h n, Node.getType h p ≠ "Const" → ¬StandsForConst x h p ∧
        (Node.getType h n = "MatMul" → Node.getType h p = "Switch" →
          ∀ q ∈ Node.getInDataNodes h p, Node.getType h q ≠ "Const" ∧ ¬StandsForConst x h q)) := by
  obtain ⟨hle, heq⟩ := countP_flatMap (q := fedByConst h) (l := (h.node n).inDataAnchors)
    (f := constInputsAt x h (fun inNode => (h.node inNode).inDataAnchors.flatMap (constInputsAt x h (fun _ => []) inNode)) n)
    fun a _ hc => constInputsAt_of_const hc
  refine ⟨hle, heq.trans ?_⟩
  have hswitch : ∀ p, Node.getType h p = "Switch" → Node.getType h p ≠ "MatMul" := fun p hp => by rw [hp]; decide
  constructor
  · intro hall p hp hc
    obtain ⟨a, ha, peer, hpeer, rfl⟩ := mem_getInDataNodes.mp hp
    have hc' : fedByConst h a = false := Bool.eq_false_iff.mpr fun hc' => hc ((fedByConst_of_peer hpeer).mp hc')
    obtain ⟨hstands, hmatmul⟩ := (constInputsAt_eq_nil_iff hc').mp (hall a ha hc') peer hpeer
    exact ⟨hstands, fun hm hs => (switchInputs_eq_nil_iff (hswitch _ hs)).mp (hmatmul hm hs)⟩
  · intro hnone a ha hc
    refine (constInputsAt_eq_nil_iff hc).mpr fun peer hpeer => ?_
    obtain ⟨hstands, hmatmul⟩ := hnone _ (mem_getInDataNodes.mpr ⟨a, ha, peer, hpeer, rfl⟩) fun htype => by
      rw [(fedByConst_of_peer hpeer).mpr htype] at hc
      cases hc
    exact ⟨hstands, fun hm hs => (switchInputs_eq_nil_iff (hswitch _ hs)).mpr (hmatmul hm hs)⟩

/-- A Const is neither a Data node nor a Switch. -/
theorem noConstBehind_iff : NoConstBehind x h n ↔ ∀ p ∈ Node.getInDataNodes h n, Node.getType h p ≠ "Const" →
    ¬StandsForConst x h p ∧
    (Node.getType h n = "MatMul" → Node.getType h p = "Switch" →
      ∀ q ∈ Node.getInDataNodes h p, Node.getType h q ≠ "Const" ∧ ¬StandsForConst x h q) := by
  refine ⟨fun hno p hp _ => hno p hp, fun hno p hp => ?_⟩
  by_cases hc : Node.getType h p = "Const"
  · refine ⟨fun hstands => ?_, fun _ hswitch => ?_⟩
    · rw [hstands.1] at hc
      exact absurd hc (by decide)
    · rw [hswitch] at hc
      exact absurd hc (by decide)
  · exact hno p hp hc

end NonConstInputsAux

open NonConstInputsAux in
/-- The views agree exactly when the statuses of the anchors were set, or no constant is found behind a Data node or a Switch. -/
theorem nonConstViewsAgree_iff {x : InputMarks} {h : Heap} {n : NodeId} (hs : h.Sound) (hn : n < h.nodeCount) :
    NonConstViewsAgree x h n ↔ x.anchorStatusUpdated n = true ∨ NoConstBehind x h n := by
  rw [nonConstViewsAgree_iff_size hs hn]
  unfold getNonConstInputsSize counts
  by_cases hset : x.anchorStatusUpdated n = true
  · simp only [hset, if_true, true_or]
  · obtain ⟨hle, heq⟩ := @countP_fedByConst x h n
    have hsum := @countP_fedByOther h (h.node n).inDataAnchors
    have hlen : (Node.getInDataNodes h n).length = ((h.node n).inDataAnchors.filterMap (InDataAnchor.getPeerOutAnchor h)).length :=
      length_map ..
    rw [or_iff_right hset, noConstBehind_iff, ← heq, hlen, ← hsum]
    simp only [hset, Bool.false_eq_true, if_false]
    -- when all linked inputs are fed by a Const, no more constants are found
    have hall : (h.node n).inDataAnchors.countP (fedByOther h) = 0 →
        (h.node n).inDataAnchors.countP (fedByConst h) = (getConstInputs x h n).length := fun hzero => by
      refine heq.mpr fun p hp hc => ?_
      obtain ⟨a, ha, peer, hpeer, rfl⟩ := mem_getInDataNodes.mp hp
      refine absurd ?_ (countP_eq_zero.mp hzero a ha)
      rw [fedByOther, hpeer]
      exact decide_eq_true hc
    rw [show (fun a => fedByOther h a) = fedByOther h from rfl]
    split
    · exact ⟨hall, fun he => by omega⟩
    · refine ⟨fun he => ?_, fun he => by omega⟩
      by_cases hzero : (h.node n).inDataAnchors.countP (fedByOther h) = 0
      · exact hall hzero
      · omega

namespace NonConstInputsWitness

/-- A Const feeds a node that runs a subgraph, in which a Data node feeds a Relu. -/
def calls : List LinkCall :=
  [.newOp { opDef := { name := "c", type := "Const" }, outputsDesc := [{}] }, .newNode 0,
    .newOp { opDef := { name := "call", type := "PartitionedCall" }, inputsDesc := [{}] }, .newNode 1,
    .newOp { opDef := { name := "d", type := "Data" }, outputsDesc := [{}] }, .newNode 2,
    .newOp { opDef := { name := "relu", type := "Relu" }, inputsDesc := [{}] }, .newNode 3,
    .outDataLinkTo 2 (some 5), .outDataLinkTo 8 (some 11)]

def linked : Heap := (LinkCall.runAll calls).getD .empty

def heap : Heap :=
  let h := linked.setNode 2 { linked.node 2 with ownerGraph := some 1 }
  h.setGraph 1 { parentGraph := some 0, parentNode := some 1 }

theorem sound : heap.Sound := by
  refine (sound_runAll calls linked (by decide +kernel) rfl).of_anchors rfl rfl (funext fun n => ?_) rfl
  by_cases hn : n = 2
  · subst hn
    funext k
    cases k <;> rfl
  · funext k
    cases k <;> simp [Heap.anchorsOf, heap, hn]

/-- The Data node stands for the first input of the node that runs the subgraph. -/
def marks : InputMarks := { parentNodeIndex := fun o => if o = 2 then some 0 else none }

end NonConstInputsWitness

open NonConstInputsWitness in
/-- A Relu fed by a Data node: the views agree when that stands for nothing. -/
theorem nonConstViewsAgree_relu : NonConstViewsAgree {} heap 3 :=
  (nonConstViewsAgree_iff sound (by decide +kernel)).mpr (.inr fun p hp => by
    have hp' : p ∈ [2] := by
      rwa [show Node.getInDataNodes heap 3 = [2] by decide +kernel] at hp
    obtain rfl := mem_singleton.mp hp'
    refine ⟨fun hstands => ?_, fun hmatmul => absurd hmatmul (by decide +kernel)⟩
    obtain ⟨-, parent, hparent, -⟩ := hstands
    rw [show NodeUtils.getParentInput {} heap 2 = none by decide +kernel] at hparent
    cases hparent)

open NonConstInputsWitness in
/-- A Relu fed by a Data node that stands for a Const has an input that is not constant, and none by their number. -/
theorem not_nonConstViewsAgree : ¬∀ (x : InputMarks) (h : Heap) (n : NodeId), h.Sound → n < h.nodeCount →
    NonConstViewsAgree x h n := by
  intro hall
  have hcounted := ((hall marks heap 3 sound (by decide +kernel)).counted 0).mp (by decide +kernel)
  exact absurd hcounted (by decide +kernel)

end Metadef
