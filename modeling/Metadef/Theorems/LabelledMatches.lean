import Metadef.FusionPass
import Metadef.Lemmas.GraphSteps
import Metadef.Theorems.FusionMatches

/-!
# Matches with one stream label

The matches with one label on all of their nodes are collected when there are no others, and none is when every match is one of the
others and the first of them is refused. A refused match ends the search, and some with different labels are not refused.
-/

namespace Metadef

open List FusionMatchesAux

namespace PatternFusion

/-- The matches of the candidates, in their order. -/
def foundMatches (originalType : OpId → String) (fuel : Nat) (g : PassGraph) (p : FusionPattern) (out : PatternOpId) : List Mapping :=
  (matchOutputNodes originalType g (p.op out).types).filterMap fun n =>
    (matchFromOutput originalType g.heap p fuel (some n) (some out) []).bind fun r => if r.1 then some r.2 else none

/-- The nodes of a mapping have one label, or none has any. -/
def OneLabel (streamLabel : OpId → Option String) (h : Heap) (m : Mapping) : Prop :=
  ∀ a ∈ getNodesFromMapping m, ∀ b ∈ getNodesFromMapping m, streamLabel (h.node a).op = streamLabel (h.node b).op

instance (streamLabel : OpId → Option String) (h : Heap) (m : Mapping) : Decidable (OneLabel streamLabel h m) :=
  inferInstanceAs (Decidable (∀ a ∈ getNodesFromMapping m, ∀ b ∈ getNodesFromMapping m,
    streamLabel (h.node a).op = streamLabel (h.node b).op))

end PatternFusion

open PatternFusion

namespace LabelledMatchesAux

/-! ## Labels -/

theorem checkLabels_replicate {l : List String} {s : String} (h : ∀ t ∈ l, t = s) {current : String}
    (hc : current = "" ∨ current = s) : checkLabels l current = true := by
  induction l generalizing current with
  | nil => rfl
  | cons t l ih =>
    have ht : t = s := h t mem_cons_self
    have ihl : ∀ {current : String}, current = "" ∨ current = s → checkLabels l current = true :=
      ih fun t ht => h t (mem_cons_of_mem _ ht)
    rw [checkLabels]
    split
    next => exact ihl (.inr ht)
    next hne =>
      obtain rfl : current = s := hc.resolve_left hne
      rw [if_neg (by simp [ht])]
      exact ihl (.inr rfl)

/-- Nodes with one label are accepted in any order. -/
theorem accept_of_oneLabel {streamLabel : OpId → Option String} {h : Heap} {byPointer : Mapping → Mapping} {m : Mapping}
    (hperm : (byPointer m).Perm m) (hone : OneLabel streamLabel h m) :
    checkStreamLabel streamLabel h (getNodesFromMapping (byPointer m)) = true := by
  have hmem : ∀ a, a ∈ getNodesFromMapping (byPointer m) ↔ a ∈ getNodesFromMapping m := fun a =>
    (hperm.flatMap_right Prod.snd).mem_iff
  cases hnodes : getNodesFromMapping (byPointer m) with
  | nil => rfl
  | cons a l =>
    have ha : a ∈ getNodesFromMapping m := (hmem a).mp (hnodes ▸ mem_cons_self)
    rw [← hnodes]
    refine checkLabels_replicate (s := (streamLabel (h.node a).op).getD "null") (fun t ht => ?_) (.inl rfl)
    obtain ⟨b, hb, rfl⟩ := List.mem_map.mp ht
    rw [hone b ((hmem b).mp hb) a ha]

/-! ## The loop over the candidates -/

section

variable {matchFrom : NodeId → Option (Bool × Mapping)} {accept : Mapping → Bool}

/-- The mapping of a candidate that matches. -/
def found (matchFrom : NodeId → Option (Bool × Mapping)) (n : NodeId) : Option Mapping :=
  (matchFrom n).bind fun r => if r.1 then some r.2 else none

/-- The loop stops in front of the first match that is not accepted. -/
theorem collectMatches_eq {nodes : List NodeId} (hends : ∀ n ∈ nodes, (matchFrom n).isSome) : ∀ mappings : List Mapping,
    collectMatches matchFrom accept nodes mappings =
      if (nodes.filterMap (found matchFrom)).all accept then
        some (!(mappings ++ nodes.filterMap (found matchFrom)).isEmpty, mappings ++ nodes.filterMap (found matchFrom))
      else some (false, mappings ++ (nodes.filterMap (found matchFrom)).takeWhile accept) := by
  induction nodes with
  | nil => simp [collectMatches]
  | cons n nodes ih =>
    intro mappings
    obtain ⟨⟨ok, m⟩, hn⟩ := Option.isSome_iff_exists.mp (hends n mem_cons_self)
    have ih := ih fun n hn => hends n (mem_cons_of_mem _ hn)
    rw [collectMatches, hn, Option.bind_some]
    cases ok with
    | false =>
      have hfound : found matchFrom n = none := by rw [found, hn]; rfl
      rw [filterMap_cons_none hfound]
      exact ih mappings
    | true =>
      have hfound : found matchFrom n = some m := by rw [found, hn]; rfl
      rw [filterMap_cons_some hfound]
      cases ha : accept m with
      | false => simp [ha]
      | true => simp [ha, ih]

end

/-- What is collected of matches is those with one label exactly when all are such, or when none is and the first is refused. -/
theorem collected_iff {ms : List Mapping} {accept : Mapping → Bool} {legal : Mapping → Prop} [DecidablePred legal]
    (hlegal : ∀ m, legal m → accept m = true) {ok : Bool} {collected : List Mapping}
    (hrun : (if ms.all accept then some (!ms.isEmpty, ms) else some (false, ms.takeWhile accept)) = some (ok, collected)) :
    (collected = ms.filter (fun m => decide (legal m)) ∧ (ok = true ↔ collected ≠ [])) ↔
      (∀ m ∈ ms, legal m) ∨ ((∀ m ∈ ms, ¬legal m) ∧ ∀ m, ms.head? = some m → accept m = false) := by
  cases hall : ms.all accept with
  | true =>
    rw [hall, if_pos rfl] at hrun
    obtain ⟨rfl, rfl⟩ := Cmd.of_return hrun
    have hok : (!ms.isEmpty) = true ↔ ms ≠ [] := by simp
    constructor
    · rintro ⟨hfilter, -⟩
      refine .inl fun m hm => ?_
      rw [hfilter] at hm
      exact of_decide_eq_true (mem_filter.mp hm).2
    · rintro (h | ⟨hnone, hhead⟩)
      · exact ⟨(filter_eq_self.mpr fun m hm => decide_eq_true (h m hm)).symm, hok⟩
      · -- the first is accepted, so there is none
        cases ms with
        | nil => exact ⟨rfl, hok⟩
        | cons m ms =>
          have hm : accept m = true := all_eq_true.mp hall m mem_cons_self
          rw [hhead m rfl] at hm
          cases hm
  | false =>
    rw [hall, if_neg (by decide)] at hrun
    obtain ⟨rfl, rfl⟩ := Cmd.of_return hrun
    constructor
    · rintro ⟨hfilter, hok⟩
      have hnil : ms.takeWhile accept = [] := by
        by_contra hne
        exact Bool.false_ne_true (hok.mpr hne)
      have hnone : ∀ m ∈ ms, ¬legal m := by
        intro m hm hl
        have hmem : m ∈ ms.filter fun m => decide (legal m) := mem_filter.mpr ⟨hm, decide_eq_true hl⟩
        rw [← hfilter, hnil] at hmem
        cases hmem
      refine .inr ⟨hnone, fun m hm => ?_⟩
      cases ms with
      | nil => cases hm
      | cons m' ms =>
        cases hm
        by_contra hacc
        rw [takeWhile_cons, if_pos (by simpa using hacc)] at hnil
        cases hnil
    · rintro (h | ⟨hnone, hhead⟩)
      · have hacc : ms.all accept = true := all_eq_true.mpr fun m hm => hlegal m (h m hm)
        rw [hacc] at hall
        cases hall
      · have hfilter : ms.filter (fun m => decide (legal m)) = [] :=
          filter_eq_nil_iff.mpr fun m hm => by simpa using hnone m hm
        have htake : ms.takeWhile accept = [] := by
          cases ms with
          | nil => rfl
          | cons m ms => rw [takeWhile_cons, hhead m rfl]; rfl
        rw [hfilter, htake]
        exact ⟨rfl, by simp⟩

variable {g : PassGraph} {p : FusionPattern} {out : PatternOpId}

/-- Past some number of steps the searches of all candidates have ended. -/
theorem searches_end (originalType : OpId → String) (hs : g.heap.Sound)
    (hb : FusionMatchesAux.Built p out) (nodes : List NodeId) (hnodes : ∀ n ∈ nodes, n < g.heap.nodeCount) :
    ∃ bound, ∀ fuel, bound < fuel → ∀ n ∈ nodes,
      (matchFromOutput originalType g.heap p fuel (some n) (some out) []).isSome := by
  induction nodes with
  | nil => exact ⟨0, fun _ _ => nofun⟩
  | cons n nodes ih =>
    obtain ⟨b, hb'⟩ := ih fun n hn => hnodes n (mem_cons_of_mem _ hn)
    obtain ⟨b', hall⟩ := matchFromOutput_spec originalType hs hb (hnodes n mem_cons_self)
    refine ⟨b + b', fun fuel hfuel m hm => ?_⟩
    rcases mem_cons.mp hm with rfl | hm
    · obtain ⟨ok, r, hrun, -⟩ := hall fuel (by omega)
      rw [hrun]
      rfl
    · exact hb' fuel (by omega) m hm

/-- Both functions go over the matches that are found. -/
theorem matchAllWith_eq (accept : Mapping → Bool) {originalType : OpId → String} {fuel : Nat}
    (hout : p.getOutput = some out) (hends : ∀ n ∈ matchOutputNodes originalType g (p.op out).types,
      (matchFromOutput originalType g.heap p fuel (some n) (some out) []).isSome) :
    matchAllWith originalType accept fuel g p =
      if (foundMatches originalType fuel g p out).all accept then
        some (!(foundMatches originalType fuel g p out).isEmpty, foundMatches originalType fuel g p out)
      else some (false, (foundMatches originalType fuel g p out).takeWhile accept) := by
  unfold matchAllWith
  rw [hout]
  dsimp only
  split
  next hnil =>
    have hfound : foundMatches originalType fuel g p out = [] := by
      rw [foundMatches, List.isEmpty_iff.mp hnil]
      rfl
    rw [hfound]
    rfl
  next =>
    rw [collectMatches_eq hends]
    simp only [nil_append]
    rfl

end LabelledMatchesAux

open LabelledMatchesAux

/-! ## All matches -/

/-- The searches of all candidates end. `GraphFusionPassBase` collects all matches. `PatternFusionBasePass` collects those with one
label, and reports whether there is one, exactly when all are such, or none is and the first of them is refused. -/
theorem matchAll_labelled_iff (originalType : OpId → String) (streamLabel : OpId → Option String) (byPointer : Mapping → Mapping)
    (hperm : ∀ m, (byPointer m).Perm m) (g : PassGraph) (hs : g.heap.Sound) (calls : List PatternCall) (p : FusionPattern)
    (hb : (PatternCall.runAll calls).build = (p, true)) :
    ∃ out, p.getOutput = some out ∧ ((∀ n ∈ matchOutputNodes originalType g (p.op out).types, n < g.heap.nodeCount) →
      ∃ bound, ∀ fuel, bound < fuel →
        GraphFusionPassBase.matchAll originalType fuel g p =
          some (!(foundMatches originalType fuel g p out).isEmpty, foundMatches originalType fuel g p out) ∧
        ∃ ok collected, PatternFusionBasePass.matchAll originalType streamLabel byPointer fuel g p = some (ok, collected) ∧
          ((collected = (foundMatches originalType fuel g p out).filter (fun m => decide (OneLabel streamLabel g.heap m)) ∧
              (ok = true ↔ collected ≠ [])) ↔
            (∀ m ∈ foundMatches originalType fuel g p out, OneLabel streamLabel g.heap m) ∨
              ((∀ m ∈ foundMatches originalType fuel g p out, ¬OneLabel streamLabel g.heap m) ∧
                ∀ m, (foundMatches originalType fuel g p out).head? = some m →
                  checkStreamLabel streamLabel g.heap (getNodesFromMapping (byPointer m)) = false))) := by
  obtain ⟨out, hbuilt⟩ := built_of_build (formed_runAll calls) hb
  refine ⟨out, hbuilt.output, fun hnodes => ?_⟩
  obtain ⟨bound, hends⟩ := searches_end originalType hs hbuilt _ hnodes
  refine ⟨bound, fun fuel hfuel => ⟨?_, ?_⟩⟩
  · rw [GraphFusionPassBase.matchAll, matchAllWith_eq _ hbuilt.output (hends fuel hfuel)]
    exact if_pos (all_eq_true.mpr fun _ _ => rfl)
  · have hrun := matchAllWith_eq (fun m => checkStreamLabel streamLabel g.heap (getNodesFromMapping (byPointer m)))
      hbuilt.output (hends fuel hfuel)
    cases hall : PatternFusionBasePass.matchAll originalType streamLabel byPointer fuel g p with
    | none =>
      have hnone := hrun.symm.trans hall
      split at hnone <;> cases hnone
    | some r =>
      exact ⟨r.1, r.2, rfl, collected_iff (fun m => accept_of_oneLabel (hperm m)) (hrun.symm.trans hall)⟩

/-! ## Two labels on one match -/

namespace LabelledMatchesWitness

/-- The sum of an activation. -/
def calls : List PatternCall :=
  [.addOpDesc "add" ["Add"], .addOpDesc "a" ["Relu"], .setInputs "add" ["a"], .setOutput "add"]

def activated : FusionPattern := (PatternCall.runAll calls).build.1

theorem build_activated : (PatternCall.runAll calls).build = (activated, true) := by decide +kernel

/-- Two activations, each of which is added up. -/
def linking : List LinkCall :=
  let relu : OpDesc := { opDef := { name := "r", type := "Relu" }, outputsDesc := [{}] }
  let add : OpDesc := { opDef := { name := "s", type := "Add" }, inputsDesc := [{}] }
  [.newOp relu, .newNode 0, .newOp add, .newNode 1, .newOp relu, .newNode 2, .newOp add, .newNode 3,
    .addDataEdge (some 2) (some 5), .addDataEdge (some 8) (some 11)]

def sums : PassGraph := { heap := GraphSteps.addAll 0 ((LinkCall.runAll linking).getD .empty) [0, 1, 2, 3] }

theorem sound_sums : sums.heap.Sound := GraphSteps.sound_addAll 0 _ (sound_runAll linking _ (by decide +kernel) rfl)

/-- The first activation and its sum have different labels, the second and its sum have one. -/
def label (op : OpId) : Option String := if op = 0 then some "a" else if op = 1 then some "b" else some "c"

theorem matchAll_labelled_sums : ∃ out, activated.getOutput = some out ∧ ∃ bound, ∀ fuel, bound < fuel →
    GraphFusionPassBase.matchAll (fun _ => "") fuel sums activated =
      some (!(foundMatches (fun _ => "") fuel sums activated out).isEmpty, foundMatches (fun _ => "") fuel sums activated out) := by
  obtain ⟨out, hout, h⟩ := matchAll_labelled_iff (fun _ => "") label id (fun _ => .refl _) sums sound_sums calls activated
    build_activated
  have hzero : activated.getOutput = some 0 := by decide +kernel
  obtain rfl : 0 = out := Option.some.inj (hzero.symm.trans hout)
  obtain ⟨bound, hall⟩ := h (by decide +kernel)
  exact ⟨0, hout, bound, fun fuel hfuel => (hall fuel hfuel).1⟩

/-- Both are matches, and the second has one label: none is collected. -/
theorem matchAll_labelled_false :
    (∀ n ∈ matchOutputNodes (fun _ => "") sums ["Add"],
      (matchFromOutput (fun _ => "") sums.heap activated 5 (some n) (some 0) []).isSome) ∧
    ¬∃ ok collected, PatternFusionBasePass.matchAll (fun _ => "") label id 5 sums activated = some (ok, collected) ∧
      collected = (foundMatches (fun _ => "") 5 sums activated 0).filter (fun m => decide (OneLabel label sums.heap m)) ∧
      (ok = true ↔ collected ≠ []) := by
  refine ⟨by decide +kernel, ?_⟩
  rintro ⟨ok, collected, hrun, hfilter, -⟩
  have hnone : PatternFusionBasePass.matchAll (fun _ => "") label id 5 sums activated = some (false, []) := by decide +kernel
  obtain ⟨-, rfl⟩ := Prod.mk.inj (Option.some.inj (hnone.symm.trans hrun))
  have hone : (foundMatches (fun _ => "") 5 sums activated 0).filter (fun m => decide (OneLabel label sums.heap m)) =
      [[(0, [3]), (1, [2])]] := by decide +kernel
  rw [hone] at hfilter
  cases hfilter

end LabelledMatchesWitness

end Metadef
