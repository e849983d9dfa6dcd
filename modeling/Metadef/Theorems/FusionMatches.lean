import Metadef.Lemmas.FusionMatching
import Metadef.Theorems.LinkSymmetry

/-!
# Matches of fusion patterns

The search for a built pattern ends on every graph. What it reports is a match exactly when the node it starts from is of a type the
output allows and no op that is not repeatable is led to at two nodes: the search does not ask whether an op has a node already.
-/

namespace Metadef

open List OrderedMap Marking.Ongoing Marking Nat

open PatternFusion FusionMatching

/-! ## Matches -/

namespace FusionMatching

section

variable (originalType : OpId → String) (h : Heap) (p : FusionPattern)

/-- The output of a pattern needs an op when it is, or leads through inputs to, the op. -/
def Needed (out op : PatternOpId) : Prop := Relation.ReflTransGen (fun o o' => o' ∈ p.getInputs o) out op

/-- Every op needed is mapped to nodes of types it allows, and to one node unless it is repeatable, which is the node looked up by the
identifier of the op; and each input of the op is fed by an edge of each of its nodes, from a node the input is mapped to, different
inputs that are not repeatable by different edges. -/
structure IsMatch (out : PatternOpId) (m : Mapping) : Prop where
  mapped : ∀ op, Needed p out op → nodesOf m op ≠ [] ∧ ∀ n ∈ nodesOf m op, allows originalType h p op n = true
  single : ∀ op, Needed p out op → (p.op op).repeatable = false →
    ∃ n, nodesOf m op = [n] ∧ getNodeFromMapping p (p.op op).id m = some n
  fed : ∀ op, Needed p out op → ∀ n ∈ nodesOf m op, ∃ edge : Nat → AnchorId,
    (∀ j < (p.getInputs op).length, edge j ∈ (h.node n).inDataAnchors ∧
      ∃ source ∈ nodesOf m ((p.getInputs op).getD j 0), sourceOf h (edge j) = some source) ∧
    ∀ i < (p.getInputs op).length, ∀ j < (p.getInputs op).length, i ≠ j → (p.op ((p.getInputs op).getD i 0)).repeatable = false →
      (p.op ((p.getInputs op).getD j 0)).repeatable = false → edge i ≠ edge j

/-- A pair of a node and an op is led to from another when edges are given, in order, to the first inputs that take them. -/
def Leads : NodeId × PatternOpId → NodeId × PatternOpId → Prop := Worklist.Reaches (kids originalType h p)

/-- Every pair led to has an edge for each input of its op. -/
def AllFed (start : NodeId × PatternOpId) : Prop := ∀ c, Leads originalType h p start c → Fed originalType h p c

/-- No op that is not repeatable is led to at two nodes. -/
def OneNodeEach (start : NodeId × PatternOpId) : Prop :=
  ∀ op n n', (p.op op).repeatable = false → Leads originalType h p start (n, op) → Leads originalType h p start (n', op) → n = n'

end

end FusionMatching

/-- The search ends, and where it reports a match there is one. -/
def FusionMatching.Reported (originalType : OpId → String) (h : Heap) (p : FusionPattern) (node : NodeId) (out : PatternOpId) :
    Prop :=
  ∃ bound, ∀ fuel, bound < fuel → ∃ ok m, matchFromOutput originalType h p fuel (some node) (some out) [] = some (ok, m) ∧
    (ok = true → IsMatch originalType h p out m)

namespace FusionMatchesAux

/-! ## Built patterns -/

/-- Each op is found under its identifier, and inputs are ops of the pattern. -/
structure Formed (p : FusionPattern) : Prop where
  named : ∀ id i, p.opMap.find id = some i ↔ i < p.ops.length ∧ (p.op i).id = id
  inputs : ∀ i < p.ops.length, ∀ j ∈ p.getInputs i, j < p.ops.length
  unset : p.output = none

section

variable {p : FusionPattern} {i j : PatternOpId}

theorem op_setOp (op : PatternOp) (hi : i < p.ops.length) : (p.setOp i op).op j = if j = i then op else p.op j := by
  unfold FusionPattern.setOp FusionPattern.op
  rw [getD_eq_getElem?_getD, getElem?_set, getD_eq_getElem?_getD]
  by_cases hji : j = i
  · subst hji
    simp [hi]
  · simp [hji, Ne.symm hji]

/-- Writing an op with its identifier, and with inputs of the pattern, keeps a pattern formed. -/
theorem Formed.setOp (hf : Formed p) {op : PatternOp} (hid : op.id = (p.op i).id) (hin : ∀ j ∈ op.inputs, j < p.ops.length) :
    Formed (p.setOp i op) := by
  by_cases hi : i < p.ops.length
  · have hlen : (p.setOp i op).ops.length = p.ops.length := length_set ..
    refine ⟨fun id k => ?_, fun k hk j hj => ?_, hf.unset⟩
    · rw [hlen, op_setOp op hi]
      have hkid : (if k = i then op else p.op k).id = (p.op k).id := by
        split
        next hki => rw [hki, hid]
        next => rfl
      rw [hkid]
      exact hf.named id k
    · rw [hlen] at hk ⊢
      unfold FusionPattern.getInputs at hj
      rw [op_setOp op hi] at hj
      split at hj
      next => exact hin j hj
      next => exact hf.inputs k hk j hj
  · have heq : p.setOp i op = p := by
      unfold FusionPattern.setOp
      rw [set_eq_of_length_le (Nat.le_of_not_lt hi)]
    rwa [heq]

theorem Formed.lt_of_find (hf : Formed p) {id : String} (hi : p.getOpDesc id = some i) : i < p.ops.length :=
    ((hf.named id i).mp hi).1

theorem inputs_lt (hf : Formed p) : ∀ j ∈ (p.op i).inputs, j < p.ops.length := by
  intro j hj
  by_cases hi : i < p.ops.length
  · exact hf.inputs i hi j hj
  · unfold FusionPattern.op at hj
    rw [getD_eq_default _ _ (Nat.le_of_not_lt hi)] at hj
    cases hj

theorem Formed.pushInputs (inputIds : List String) : ∀ {p : FusionPattern}, Formed p →
    Formed (FusionPattern.pushInputs i inputIds p) := by
  induction inputIds with
  | nil => exact fun hf => hf
  | cons id inputIds ih =>
    intro p hf
    unfold FusionPattern.pushInputs
    split
    next => exact ⟨hf.named, hf.inputs, hf.unset⟩
    next input hinput =>
      refine ih (hf.setOp rfl fun j hj => ?_)
      rcases mem_append.mp hj with hj | hj
      · exact inputs_lt hf j hj
      · exact mem_singleton.mp hj ▸ hf.lt_of_find hinput

theorem Formed.addOpDesc (hf : Formed p) (id : String) (types : List String) : Formed (p.addOpDesc id types) := by
  unfold FusionPattern.addOpDesc
  split
  next => exact ⟨hf.named, hf.inputs, hf.unset⟩
  next =>
    split
    next => exact ⟨hf.named, hf.inputs, hf.unset⟩
    next hnew =>
      have hop : ∀ q : FusionPattern, q.ops = p.ops ++ [({ id, types } : PatternOp)] →
          ∀ k, q.op k = if k = p.ops.length then ({ id, types } : PatternOp) else p.op k := by
        intro q hq k
        unfold FusionPattern.op
        rw [hq, getD_eq_getElem?_getD, getElem?_append, getD_eq_getElem?_getD]
        by_cases hk : k < p.ops.length
        · simp [hk, Nat.ne_of_lt hk]
        · by_cases hke : k = p.ops.length
          · simp [hke]
          · have hlt : p.ops.length < k := Nat.lt_of_le_of_ne (Nat.le_of_not_lt hk) (Ne.symm hke)
            have hone : [({ id, types } : PatternOp)][k - p.ops.length]? = none :=
              getElem?_eq_none (succ_le_of_lt (Nat.sub_pos_of_lt hlt))
            simp [hk, hke, hone]
      have hnone : p.opMap.find id = none := Option.not_isSome_iff_eq_none.mp hnew
      refine ⟨fun id' k => ?_, fun k hk j hj => ?_, hf.unset⟩
      · rw [find_assign, hop _ rfl k]
        simp only [length_append, length_singleton]
        by_cases hk : k = p.ops.length
        · subst hk
          have hout : ¬ p.opMap.find id' = some p.ops.length := fun hfind => Nat.lt_irrefl _ (hf.lt_of_find hfind)
          by_cases hid : id' = id
          · simp [hid]
          · simp [hid, hout, Ne.symm hid]
        · by_cases hid : id' = id
          · have hother : ¬ (p.op k).id = id ∨ ¬ k < p.ops.length := by
              by_contra hno
              rw [not_or, not_not, not_not] at hno
              have hfind := (hf.named id k).mpr ⟨hno.2, hno.1⟩
              rw [hnone] at hfind
              cases hfind
            simp only [hid, if_true, hk, if_false, Option.some.injEq, Ne.symm hk, false_iff, not_and]
            intro hlt
            exact hother.resolve_right fun hn => hn (Nat.lt_of_le_of_ne (le_of_lt_succ hlt) hk)
          · simp only [hid, if_false, hk, hf.named]
            exact and_congr_left fun _ => ⟨lt_succ_of_lt, fun hlt => Nat.lt_of_le_of_ne (le_of_lt_succ hlt) hk⟩
      · simp only [length_append, length_singleton] at hk ⊢
        unfold FusionPattern.getInputs at hj
        rw [hop _ rfl k] at hj
        split at hj
        next => cases hj
        next hne => exact lt_succ_of_lt (hf.inputs k (Nat.lt_of_le_of_ne (le_of_lt_succ hk) hne) j hj)

theorem Formed.run (hf : Formed p) (c : PatternCall) : Formed (c.run p) := by
  cases c with
  | setName => exact ⟨hf.named, hf.inputs, hf.unset⟩
  | addOpDesc id types => exact hf.addOpDesc id types
  | setInputs id inputIds =>
    change Formed (p.setInputs id inputIds)
    unfold FusionPattern.setInputs
    split
    next => exact ⟨hf.named, hf.inputs, hf.unset⟩
    next =>
      split
      next => exact ⟨hf.named, hf.inputs, hf.unset⟩
      next => exact Formed.pushInputs inputIds (hf.setOp rfl fun j hj => by cases hj)
  | setOutput id =>
    change Formed (p.setOutput id)
    unfold FusionPattern.setOutput
    split
    next => exact ⟨hf.named, hf.inputs, hf.unset⟩
    next =>
      split
      next => exact ⟨hf.named, hf.inputs, hf.unset⟩
      next => exact hf.setOp rfl fun j hj => inputs_lt hf j hj
  | setRepeatable i repeatable => exact hf.setOp rfl fun j hj => inputs_lt hf j hj

theorem formed_runAll (calls : List PatternCall) : Formed (PatternCall.runAll calls) := by
  have hall : ∀ (calls : List PatternCall) (p : FusionPattern), Formed p → Formed (calls.foldl PatternCall.run p) := by
    intro calls
    induction calls with
    | nil => exact fun _ hf => hf
    | cons c calls ih => exact fun p hf => ih _ (hf.run c)
  exact hall calls {} ⟨by simp [OrderedMap.find], by simp, rfl⟩

theorem findOutput_spec (ops : List PatternOpId) : ∀ p : FusionPattern,
    (FusionPattern.findOutput ops p).ops = p.ops ∧ (FusionPattern.findOutput ops p).opMap = p.opMap ∧
      ∀ out, (FusionPattern.findOutput ops p).output = some out → p.output = some out ∨ out ∈ ops := by
  induction ops with
  | nil => exact fun p => ⟨rfl, rfl, fun out h => .inl h⟩
  | cons i ops ih =>
    intro p
    unfold FusionPattern.findOutput
    split
    next =>
      split
      next => exact ⟨rfl, rfl, fun out h => .inl h⟩
      next =>
        obtain ⟨hops, hmap, hout⟩ := ih { p with output := some i }
        refine ⟨hops, hmap, fun out h => .inr ?_⟩
        rcases hout out h with heq | hin
        · exact Option.some.inj heq ▸ mem_cons_self
        · exact mem_cons_of_mem i hin
    next =>
      obtain ⟨hops, hmap, hout⟩ := ih p
      exact ⟨hops, hmap, fun out h => (hout out h).imp id (mem_cons_of_mem i)⟩

/-- A pattern that was built has an output among its ops; each op is found under its identifier, and inputs are ops. -/
structure Built (p : FusionPattern) (out : PatternOpId) : Prop where
  output : p.output = some out
  out_lt : out < p.ops.length
  inputs : ∀ i < p.ops.length, ∀ j ∈ p.getInputs i, j < p.ops.length
  id_inj : ∀ i < p.ops.length, ∀ j < p.ops.length, (p.op i).id = (p.op j).id → i = j

theorem built_of_build {q : FusionPattern} (hf : Formed p) (hb : p.build = (q, true)) : ∃ out, Built q out := by
  unfold FusionPattern.build at hb
  split at hb
  next => cases hb
  next =>
    obtain ⟨hops, hmap, hout⟩ := findOutput_spec (List.range p.ops.length) p
    obtain ⟨hq, hok⟩ := Prod.mk.inj hb
    cases hnone : (FusionPattern.findOutput (List.range p.ops.length) p).output with
    | none => simp [hnone, FusionPattern.setError] at hok
    | some out =>
      simp only [hnone, Option.isNone_some] at hq
      have hq : FusionPattern.findOutput (List.range p.ops.length) p = q := hq
      rw [hq] at hops hmap hnone hout
      have hop : ∀ i, q.op i = p.op i := fun i => by rw [FusionPattern.op, hops, FusionPattern.op]
      refine ⟨out, hnone, ?_, fun i hi j hj => ?_, fun i hi j hj hid => ?_⟩
      · rcases hout out hnone with h | h
        · rw [hf.unset] at h
          cases h
        · rw [hops]
          exact mem_range.mp h
      · rw [hops] at hi ⊢
        rw [FusionPattern.getInputs, hop] at hj
        exact hf.inputs i hi j hj
      · rw [hops] at hi hj
        rw [hop, hop] at hid
        have h1 := (hf.named _ i).mpr ⟨hi, rfl⟩
        have h2 := (hf.named _ j).mpr ⟨hj, rfl⟩
        rw [hid, h2] at h1
        exact (Option.some.inj h1).symm

/-! ## Pairs led to -/

variable {originalType : OpId → String} {h : Heap} {node n : NodeId} {out op : PatternOpId} {c d : NodeId × PatternOpId}

theorem mem_kids {l : List (NodeId × PatternOpId)} (hk : kids originalType h p c = some l) :
    Fed originalType h p c ∧ l = (given originalType h p c.1 c.2).map (pairOf h p c.2) := by
  unfold kids at hk
  split at hk
  next hf => exact ⟨hf, (Option.some.inj hk).symm⟩
  next => cases hk

theorem kids_of_fed (hf : Fed originalType h p c) :
    kids originalType h p c = some ((given originalType h p c.1 c.2).map (pairOf h p c.2)) := if_pos hf

/-- An edge given to an input of an op: what it comes from and what it leads to. -/
theorem of_given {e : AnchorId × Nat} (he : e ∈ given originalType h p n op) :
    e.1 ∈ (h.node n).inDataAnchors ∧ e.2 < (p.getInputs op).length ∧ ∃ b source, InDataAnchor.getPeerOutAnchor h e.1 = some b ∧
      h.owner b = source ∧ sourceOf h e.1 = some source ∧ pairOf h p op e = (source, (p.getInputs op).getD e.2 0) ∧
      allows originalType h p ((p.getInputs op).getD e.2 0) source = true := by
  obtain ⟨ha, hlt, source, hsource, hallows⟩ := of_give (a := e.1) (j := e.2) he
  obtain ⟨b, hb, hown⟩ := Option.map_eq_some_iff.mp hsource
  have hin := (mem_insertionSort (r := fun a b => (h.anchor a).idx ≤ (h.anchor b).idx)).mp ha
  refine ⟨(mem_filter.mp hin).1, hlt, b, source, hb, hown, hsource, ?_, hallows⟩
  unfold pairOf
  rw [hsource]
  rfl

/-- What a step leads to: an input of the op, and a source of the node that the input allows. -/
theorem of_child (hc : Worklist.Child (kids originalType h p) d c) : ∃ e ∈ given originalType h p c.1 c.2, pairOf h p c.2 e =
    d := by
  obtain ⟨l, hl, hd⟩ := hc
  obtain ⟨-, rfl⟩ := mem_kids hl
  exact List.mem_map.mp hd

theorem child_spec (hc : Worklist.Child (kids originalType h p) d c) :
    d.2 ∈ p.getInputs c.2 ∧ allows originalType h p d.2 d.1 = true ∧ ∃ a b, InDataAnchor.getPeerOutAnchor h a = some b ∧
      h.owner b = d.1 := by
  obtain ⟨e, he, rfl⟩ := of_child hc
  obtain ⟨-, hlt, b, source, hb, hown, -, hpair, hallows⟩ := of_given he
  rw [hpair]
  refine ⟨?_, hallows, e.1, b, hb, hown⟩
  rw [getD_eq_getElem _ _ hlt]
  exact getElem_mem hlt

theorem needed_of_leads (hl : Leads originalType h p (node, out) c) : Needed p out c.2 := by
  induction hl with
  | refl => exact .refl
  | tail _ hstep ih => exact ih.tail (child_spec hstep).1

/-- Where every pair led to is fed, every op needed is led to. -/
theorem exists_leads (hfed : AllFed originalType h p (node, out)) (hn : Needed p out op) :
    ∃ n, Leads originalType h p (node, out) (n, op) := by
  induction hn with
  | refl => exact ⟨node, .refl⟩
  | @tail o o' _ hstep ih =>
    obtain ⟨n, hl⟩ := ih
    obtain ⟨j, hj, rfl⟩ := getElem_of_mem hstep
    obtain ⟨e, he, rfl⟩ := hfed _ hl j hj
    obtain ⟨-, -, b, source, -, -, -, hpair, -⟩ := of_given he
    refine ⟨source, hl.tail ⟨_, kids_of_fed (hfed _ hl), List.mem_map.mpr ⟨e, he, ?_⟩⟩⟩
    rw [hpair, getD_eq_getElem _ _ hj]

theorem allows_of_leads (hallows : allows originalType h p out node = true) (hl : Leads originalType h p (node, out) (n, op)) :
    allows originalType h p op n = true := by
  rcases Relation.ReflTransGen.cases_tail hl with heq | ⟨c, -, hstep⟩
  · obtain ⟨rfl, rfl⟩ := Prod.mk.inj heq
    exact hallows
  · exact (child_spec hstep).2.1

/-- Pairs led to are of the nodes made and the ops of the pattern. -/
theorem leads_lt (hs : h.Sound) (hb : Built p out) (hnode : node < h.nodeCount) (hl : Leads originalType h p (node, out) c) :
    c.1 < h.nodeCount ∧ c.2 < p.ops.length := by
  induction hl with
  | refl => exact ⟨hnode, hb.out_lt⟩
  | @tail c d _ hstep ih =>
    obtain ⟨hin, -, a, b, hpeer, hown⟩ := child_spec hstep
    refine ⟨?_, hb.inputs _ ih.2 _ hin⟩
    have hmem : b ∈ h.peers a := by
      unfold InDataAnchor.getPeerOutAnchor at hpeer
      split at hpeer
      next => cases hpeer
      next b' _ hp =>
        split at hpeer
        next =>
          obtain rfl := Option.some.inj hpeer
          rw [hp]
          exact mem_cons_self
        next => cases hpeer
    rw [← hown]
    exact (hs.peersHeld a b hmem).1

/-! ## What is reported -/

theorem eq_singleton {l : List NodeId} (hne : l ≠ []) (hnodup : l.Nodup) (hone : ∀ a ∈ l, ∀ b ∈ l, a = b) : ∃ a, l = [a] := by
  obtain ⟨a, l, rfl⟩ := exists_cons_of_ne_nil hne
  cases l with
  | nil => exact ⟨a, rfl⟩
  | cons b l =>
    obtain rfl := hone a (by simp) b (by simp)
    simp at hnodup

theorem find_unique {α : Type} {l : List α} {q : α → Bool} {a : α} (ha : a ∈ l) (hq : q a = true)
    (hone : ∀ b ∈ l, q b = true → b = a) : l.find? q = some a := by
  have hsome : (l.find? q).isSome := find?_isSome.mpr ⟨a, ha, hq⟩
  obtain ⟨b, hb⟩ := Option.isSome_iff_exists.mp hsome
  rw [hb, hone b (mem_of_find?_eq_some hb) (find?_some hb)]

variable {m : Mapping} {seen : List (NodeId × PatternOpId)}

/-- The node of an op mapped to one is found by the identifier of the op. -/
theorem getNodeFromMapping_eq (hb : Built p out) (hm : Holds m seen) (hlt : ∀ c ∈ seen, c.2 < p.ops.length)
    (hop : op < p.ops.length)
    (hone : nodesOf m op = [n]) : getNodeFromMapping p (p.op op).id m = some n := by
  have hfound : OrderedMap.find m op = some [n] := by
    cases hf : OrderedMap.find m op with
    | none => simp [nodesOf, hf] at hone
    | some l =>
      simp only [nodesOf, hf, Option.getD_some] at hone
      rw [hone]
  have hfirst : m.find? (fun item => (p.op item.1).id = (p.op op).id) = some (op, [n]) := by
    refine find_unique (mem_of_find hfound) (decide_eq_true rfl) fun e he hid => ?_
    have hfe := find_of_mem hm.keys he
    -- an entry has nodes, so its op is of the pattern and the identifier is its own
    obtain ⟨v, hv⟩ := exists_mem_of_ne_nil _ (hm.nonempty e he)
    have hin : (v, e.1) ∈ seen := by
      rw [← hm.mem_nodesOf, nodesOf, hfe]
      exact hv
    have heq : e.1 = op := hb.id_inj _ (hlt _ hin) _ hop (of_decide_eq_true hid)
    rw [heq, hfound] at hfe
    exact Prod.ext heq (Option.some.inj hfe).symm
  unfold getNodeFromMapping
  rw [hfirst]
  rfl

/-- What a search that marked all pairs led to reports is a match exactly when the output allows the first node and no op is led to at
two nodes, unless it is repeatable. -/
theorem isMatch_iff (hs : h.Sound) (hb : Built p out) (hnode : node < h.nodeCount) (hm : Holds m seen) (hnodup : seen.Nodup)
    (hseen : ∀ c, c ∈ seen ↔ Leads originalType h p (node, out) c) (hfed : AllFed originalType h p (node, out)) :
    IsMatch originalType h p out m ↔
      allows originalType h p out node = true ∧ OneNodeEach originalType h p (node, out) := by
  have hin : ∀ {n op}, n ∈ nodesOf m op ↔ Leads originalType h p (node, out) (n, op) := fun {n op} => hm.mem_nodesOf.trans (hseen _)
  constructor
  · intro hmatch
    refine ⟨(hmatch.mapped out .refl).2 node (hin.mpr .refl), fun op n n' hrep hl hl' => ?_⟩
    obtain ⟨a, hone, -⟩ := hmatch.single op (needed_of_leads hl) hrep
    have hn := hin.mpr hl
    have hn' := hin.mpr hl'
    rw [hone, mem_singleton] at hn hn'
    rw [hn, hn']
  · rintro ⟨hallows, hsingle⟩
    have hne : ∀ op, Needed p out op → nodesOf m op ≠ [] := by
      intro op hop
      obtain ⟨n, hl⟩ := exists_leads hfed hop
      exact ne_nil_of_mem (hin.mpr hl)
    refine ⟨fun op hop => ⟨hne op hop, fun n hn => allows_of_leads hallows (hin.mp hn)⟩, fun op hop hrep => ?_,
      fun op hop n hn => ?_⟩
    · have hnodes : (nodesOf m op).Nodup := by
        rw [hm.nodes]
        refine (nodup_map_iff_inj_on (hnodup.filter _)).mpr fun c hc d hd hcd => ?_
        have hc2 := of_decide_eq_true (mem_filter.mp hc).2
        have hd2 := of_decide_eq_true (mem_filter.mp hd).2
        exact Prod.ext hcd (hc2.trans hd2.symm)
      obtain ⟨n, hone⟩ := eq_singleton (hne op hop) hnodes fun a ha b hb => hsingle op a b hrep (hin.mp ha) (hin.mp hb)
      have hl : Leads originalType h p (node, out) (n, op) := hin.mp (by rw [hone]; exact mem_singleton.mpr rfl)
      have hlt : ∀ c ∈ seen, c.2 < p.ops.length := fun c hc => (leads_lt hs hb hnode ((hseen c).mp hc)).2
      exact ⟨n, hone, getNodeFromMapping_eq hb hm hlt (leads_lt hs hb hnode hl).2 hone⟩
    · have hl := hin.mp hn
      have hf := hfed _ hl
      -- the edge chosen for an input is one given to it
      have hpick : ∀ j, ∃ a, j < (p.getInputs op).length → (a, j) ∈ given originalType h p n op := by
        intro j
        by_cases hj : j < (p.getInputs op).length
        · obtain ⟨e, he, rfl⟩ := hf j hj
          exact ⟨e.1, fun _ => he⟩
        · exact ⟨0, fun h => absurd h hj⟩
      choose edge hedge using hpick
      have hdistinct : (sortedAnchors h n).Nodup := by
        have hanchors : ((h.node n).inDataAnchors).Nodup := hs.laid.nodup (leads_lt hs hb hnode hl).1 .inData
        exact (perm_insertionSort _ _).nodup_iff.mpr (hanchors.filter _)
      refine ⟨edge, fun j hj => ?_, fun i hi j hj hij _ _ heq => ?_⟩
      · obtain ⟨ha, -, b, source, -, -, hsource, hpair, -⟩ := of_given (hedge j hj)
        refine ⟨ha, source, hin.mpr (hl.tail ⟨_, kids_of_fed hf, List.mem_map.mpr ⟨(edge j, j), hedge j hj, hpair⟩⟩), hsource⟩
      · have hi' := hedge i hi
        rw [heq] at hi'
        exact hij (give_unique hdistinct hi' (hedge j hj))

variable (originalType) in
/-- The search from a node for the output of a built pattern is what the search over pairs makes it. -/
theorem matchFromOutput_spec (hs : h.Sound) (hb : Built p out) (hnode : node < h.nodeCount) :
    ∃ bound, ∀ fuel, bound < fuel → ∃ ok m, matchFromOutput originalType h p fuel (some node) (some out) [] = some (ok, m) ∧
      (ok = true ↔ AllFed originalType h p (node, out)) ∧
      (ok = true → ∃ seen : List (NodeId × PatternOpId), seen.Nodup ∧ Holds m seen ∧
        ∀ c, c ∈ seen ↔ Leads originalType h p (node, out) c) := by
  have hitems : ∀ c, Leads originalType h p (node, out) c → c ∈ List.range h.nodeCount ×ˢ List.range p.ops.length := by
    intro c hl
    obtain ⟨hn, hop⟩ := leads_lt hs hb hnode hl
    exact mem_product.mpr ⟨mem_range.mpr hn, mem_range.mpr hop⟩
  have hnone : Holds [] [] := ⟨nodup_nil, fun op => rfl, fun e he => by cases he⟩
  have hinit : Holds (pushNode [] out node) [(node, out)] := hnone.push (node, out)
  refine ⟨(List.range h.nodeCount ×ˢ List.range p.ops.length).length, fun fuel hfuel => ?_⟩
  have hstart := init (kids originalType h p) (node, out)
  obtain ⟨r, hr⟩ := search_returns _ hitems fuel [] _ _ hstart (by simpa using hfuel)
  have hspec := matchLoop_spec originalType h p fuel hinit [(node, out)]
  rw [hr] at hspec
  cases r with
  | none =>
    obtain ⟨m, hloop⟩ := hspec
    obtain ⟨c, hl, hk⟩ := of_search_fail hstart hr
    refine ⟨false, m, hloop, ⟨(fun hf => nomatch hf), fun hfed => ?_⟩, fun hf => nomatch hf⟩
    rw [kids_of_fed (hfed c hl)] at hk
    cases hk
  | some seen =>
    obtain ⟨m, hloop, hm⟩ := hspec
    obtain ⟨hnodup, hseen, hkids⟩ := of_search hstart hr
    refine ⟨true, m, hloop, ⟨fun _ c hl => ?_, fun _ => rfl⟩, fun _ => ⟨seen, hnodup, hm, hseen⟩⟩
    obtain ⟨l, hl⟩ := hkids c hl
    exact (mem_kids hl).1

/-- What the search reports is a match exactly when, should every pair led to be fed, the output allows the first node and no op is led
to at two nodes, unless it is repeatable. -/
theorem reported_iff (hs : h.Sound) (hb : Built p out) (hnode : node < h.nodeCount) :
    Reported originalType h p node out ↔ (AllFed originalType h p (node, out) →
      allows originalType h p out node = true ∧ OneNodeEach originalType h p (node, out)) := by
  obtain ⟨bound, hall⟩ := matchFromOutput_spec originalType hs hb hnode
  constructor
  · rintro ⟨bound', hmatch⟩ hfed
    obtain ⟨ok, m, hrun, hok, hmarked⟩ := hall (bound + bound' + 1) (by omega)
    obtain ⟨ok', m', hrun', hmatch⟩ := hmatch (bound + bound' + 1) (by omega)
    obtain ⟨rfl, rfl⟩ := Prod.mk.inj (Option.some.inj (hrun.symm.trans hrun'))
    obtain ⟨seen, hnodup, hm, hseen⟩ := hmarked (hok.mpr hfed)
    exact (isMatch_iff hs hb hnode hm hnodup hseen hfed).mp (hmatch (hok.mpr hfed))
  · intro hcond
    refine ⟨bound, fun fuel hfuel => ?_⟩
    obtain ⟨ok, m, hrun, hok, hmarked⟩ := hall fuel hfuel
    refine ⟨ok, m, hrun, fun ht => ?_⟩
    obtain ⟨seen, hnodup, hm, hseen⟩ := hmarked ht
    exact (isMatch_iff hs hb hnode hm hnodup hseen (hok.mp ht)).mpr (hcond (hok.mp ht))

end

end FusionMatchesAux

open FusionMatchesAux in
/-- The search for a built pattern ends and reports nothing but matches exactly when, should every pair led to have an edge for each
input, the first node is of a type the output allows and no op that is not repeatable is led to at two nodes. -/
theorem matchFromOutput_reported_iff (originalType : OpId → String) (h : Heap) (hs : h.Sound) (calls : List PatternCall)
    (p : FusionPattern) (hb : (PatternCall.runAll calls).build = (p, true)) (node : NodeId) (hnode : node < h.nodeCount) :
    ∃ out, p.getOutput = some out ∧ (Reported originalType h p node out ↔ (AllFed originalType h p (node, out) →
      allows originalType h p out node = true ∧ OneNodeEach originalType h p (node, out))) := by
  obtain ⟨out, hbuilt⟩ := built_of_build (formed_runAll calls) hb
  exact ⟨out, hbuilt.output, reported_iff hs hbuilt hnode⟩

namespace FusionMatchesWitness

open FusionMatchesAux

/-- Two activations of one convolution, added up. -/
def calls : List PatternCall :=
  [.addOpDesc "add" ["Add"], .addOpDesc "a" ["Relu"], .addOpDesc "b" ["Relu6"], .addOpDesc "c" ["Conv2D"],
    .setInputs "add" ["a", "b"], .setInputs "a" ["c"], .setInputs "b" ["c"], .setOutput "add"]

def diamond : FusionPattern := (PatternCall.runAll calls).build.1

theorem build_diamond : (PatternCall.runAll calls).build = (diamond, true) := by decide +kernel

/-- The activations of two convolutions, added up. -/
def linking : List LinkCall :=
  let conv : OpDesc := { opDef := { name := "c", type := "Conv2D" }, outputsDesc := [{}] }
  [.newOp conv, .newNode 0, .newOp conv, .newNode 1,
    .newOp { opDef := { name := "a", type := "Relu" }, inputsDesc := [{}], outputsDesc := [{}] }, .newNode 2,
    .newOp { opDef := { name := "b", type := "Relu6" }, inputsDesc := [{}], outputsDesc := [{}] }, .newNode 3,
    .newOp { opDef := { name := "s", type := "Add" }, inputsDesc := [{}, {}], outputsDesc := [{}] }, .newNode 4,
    .addDataEdge (some 2) (some 8), .addDataEdge (some 5) (some 12), .addDataEdge (some 9) (some 16), .addDataEdge (some 13)
      (some 17)]

def convs : Heap := (LinkCall.runAll linking).getD .empty

theorem sound_convs : convs.Sound := sound_runAll linking _ (by decide +kernel) rfl

theorem matchFromOutput_reported_diamond : ∃ out, diamond.getOutput = some out ∧ (Reported (fun _ => "") convs diamond 4 out ↔
    (AllFed (fun _ => "") convs diamond (4, out) →
      allows (fun _ => "") convs diamond out 4 = true ∧ OneNodeEach (fun _ => "") convs diamond (4, out))) :=
  matchFromOutput_reported_iff (fun _ => "") convs sound_convs calls diamond build_diamond 4 (by decide +kernel)

/-- The convolution of the pattern is led to at both convolutions. -/
theorem search_diamond : Marking.search (kids (fun _ => "") convs diamond) 6 [(4, 0)] [(4, 0)] =
    some (some [(4, 0), (2, 1), (3, 2), (0, 3), (1, 3)]) := by decide +kernel

/-- A match is reported though an op is mapped to two nodes. -/
theorem matchFromOutput_reported_false :
    ¬ ∀ (originalType : OpId → String) (h : Heap), h.Sound → ∀ (calls : List PatternCall) (p : FusionPattern),
      (PatternCall.runAll calls).build = (p, true) → ∀ node < h.nodeCount,
        ∃ out, p.getOutput = some out ∧ Reported originalType h p node out := by
  intro hall
  obtain ⟨out, hout, hreported⟩ := hall (fun _ => "") convs sound_convs calls diamond build_diamond 4 (by decide +kernel)
  obtain rfl : 0 = out := by
    have hzero : diamond.getOutput = some 0 := by decide +kernel
    exact Option.some.inj (hzero.symm.trans hout)
  obtain ⟨out, hbuilt⟩ := built_of_build (formed_runAll calls) build_diamond
  obtain rfl : 0 = out := Option.some.inj (hout.symm.trans hbuilt.output)
  obtain ⟨-, hseen, hkids⟩ := of_search (init _ _) search_diamond
  have hfed : AllFed (fun _ => "") convs diamond (4, 0) := by
    intro c hl
    obtain ⟨l, hl⟩ := hkids c hl
    exact (mem_kids hl).1
  have hone := ((reported_iff sound_convs hbuilt (by decide +kernel)).mp hreported hfed).2
  have htwo := hone 3 0 1 (by decide +kernel) ((hseen (0, 3)).mp (by simp)) ((hseen (1, 3)).mp (by simp))
  exact absurd htwo (by decide)

end FusionMatchesWitness

end Metadef
