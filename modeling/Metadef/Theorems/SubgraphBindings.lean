import Mathlib.Data.List.GetD
import Metadef.AutoMapping

/-!
# Subgraph names of mapped operators

Mapping gives the subgraph names of an operator to another, where a name has the next slot at the time it comes. The names of an
operator come in the order of their map and their instance names by the slots they had. Those of a node come with its attributes, in
the order of the loop.
-/

namespace Metadef

open List OrderedMap

variable {M : AttrMessages}

namespace OpDesc

/-- Each subgraph name has a slot of its own, and each slot has a name. -/
def Slots (op : OpDesc) : Prop := Positions.Indexes op.subgraphNamesToIndex op.subgraphInstanceNames.length

/-- The instance name a subgraph name is resolved to. -/
def instanceOf (op : OpDesc) (name : String) : Option String :=
  (op.subgraphNamesToIndex.find name).bind fun index => op.subgraphInstanceNames[index]?

/-- The names that another operator gets as new ones, in the order of the map. -/
def newNames (src dst : OpDesc) : List String :=
  (src.subgraphNamesToIndex.map Prod.fst).filter fun name => !dst.subgraphNamesToIndex.contains name

/-- The slot a name has after mapping: its own, or one behind all slots that there were. -/
def slotAfter (src dst : OpDesc) (name : String) : Nat :=
  (dst.subgraphNamesToIndex.find name).getD (dst.subgraphNamesToIndex.length + (newNames src dst).idxOf name)

/-- What is in a slot after mapping: the instance name of the same slot, or what was there where there is none. -/
def heldAfter (src dst : OpDesc) (slot : Nat) : String :=
  if slot < src.subgraphInstanceNames.length then src.subgraphInstanceNames.getD slot ""
  else dst.subgraphInstanceNames.getD slot ""

/-- The slot that a name gets has, in the original, the instance name of its own slot. -/
def Aligned (src dst : OpDesc) : Prop :=
  ∀ name index, src.subgraphNamesToIndex.find name = some index →
    heldAfter src dst (slotAfter src dst name) = src.subgraphInstanceNames.getD index ""

end OpDesc

/-- Mapping that succeeds resolves each subgraph name as in the original. -/
def KeepsBindings (namedAttrs : String → AttrHolder M → M.NamedAttrs) (src dst : MappedOp M) : Prop :=
  ∀ op, MappedOp.autoMappingByOpFn namedAttrs src dst = (true, op) →
    ∀ name, src.subgraphNamesToIndex.contains name = true → op.instanceOf name = src.instanceOf name

namespace SubgraphBindingsAux

open OpDesc

/-! ## Adding names -/

section

variable {op op' : OpDesc} {name : String}

theorem slots_length (h : op.Slots) : op.subgraphNamesToIndex.length = op.subgraphInstanceNames.length := h.length_eq

/-- A new name gets the next slot, which is empty. -/
theorem addSubgraphName_new (h : op.Slots) (hnew : op.subgraphNamesToIndex.contains name = false) : op.addSubgraphName name =
      (true, { op with
        subgraphNamesToIndex := op.subgraphNamesToIndex.assign name op.subgraphNamesToIndex.length
        subgraphInstanceNames := op.subgraphInstanceNames ++ [""] }) := by
  have hresize : resize op.subgraphInstanceNames (op.subgraphNamesToIndex.length + 1) "" = op.subgraphInstanceNames ++ [""] := by
    rw [resize, slots_length h, take_of_length_le (Nat.le_succ _), Nat.add_sub_cancel_left]
    rfl
  unfold addSubgraphName
  rw [if_neg (by simp [hnew])]
  dsimp only
  rw [hresize]

theorem addSubgraphName_old (hold : op.subgraphNamesToIndex.contains name = true) : op.addSubgraphName name = (false, op) := by
  unfold addSubgraphName
  rw [if_pos hold]

/-- A new name keeps slots one each. -/
theorem slots_add (h : op.Slots) (hnew : op.subgraphNamesToIndex.contains name = false) : (op.addSubgraphName name).2.Slots := by
  rw [addSubgraphName_new h hnew]
  have hassign : op.subgraphNamesToIndex.assign name op.subgraphNamesToIndex.length =
      op.subgraphNamesToIndex.insert name op.subgraphInstanceNames.length := by
    rw [slots_length h, OrderedMap.assign, OrderedMap.insert, if_neg (by simp [hnew]), if_neg (by simp [hnew])]
  unfold Slots
  dsimp only
  rw [hassign, length_append]
  exact h.push hnew

/-- The new names have the slots behind those there were, in their order, with values in them. -/
structure Added (op op' : OpDesc) (new values : List String) : Prop where
  find : ∀ n, op'.subgraphNamesToIndex.find n =
    if n ∈ new then some (op.subgraphNamesToIndex.length + new.idxOf n) else op.subgraphNamesToIndex.find n
  instances : op'.subgraphInstanceNames = op.subgraphInstanceNames ++ values
  slots : op'.Slots

theorem added_nil (h : op.Slots) : Added op op [] [] := ⟨fun _ => rfl, (append_nil _).symm, h⟩

/-- One name more before others. -/
theorem Added.cons {op₁ : OpDesc} {value : String} {new values : List String}
    (hname : op.subgraphNamesToIndex.contains name = false)
    (hnames : op₁.subgraphNamesToIndex = op.subgraphNamesToIndex.assign name op.subgraphNamesToIndex.length)
    (hvalue : op₁.subgraphInstanceNames = op.subgraphInstanceNames ++ [value]) (hnot : name ∉ new)
    (hnew : Added op₁ op' new values) : Added op op' (name :: new) (value :: values) := by
  refine ⟨fun n => ?_, ?_, hnew.slots⟩
  · rw [hnew.find n, hnames, find_assign, length_assign_of_new hname]
    by_cases hn : n = name
    · subst hn
      rw [if_neg hnot, if_pos rfl, if_pos mem_cons_self, idxOf_cons_self, Nat.add_zero]
    · rw [if_neg hn]
      by_cases hmem : n ∈ new
      · rw [if_pos hmem, if_pos (mem_cons_of_mem name hmem), idxOf_cons_ne _ (Ne.symm hn)]
        exact congrArg some (by omega)
      · rw [if_neg hmem, if_neg (fun hcons => (mem_cons.mp hcons).elim hn hmem)]
  · rw [hnew.instances, hvalue, append_assoc]
    rfl

/-- Names of a list that are not there yet are added, with nothing in their slots. -/
theorem added_all : ∀ {names : List String} {op : OpDesc}, op.Slots → names.Nodup →
    Added op (names.foldl (fun op n => (op.addSubgraphName n).2) op) (names.filter fun n => !op.subgraphNamesToIndex.contains n)
      (List.replicate (names.filter fun n => !op.subgraphNamesToIndex.contains n).length "")
  | [], _, h, _ => added_nil h
  | name :: names, op, h, hnodup => by
    obtain ⟨hnot, hnodup⟩ := nodup_cons.mp hnodup
    rw [foldl_cons]
    by_cases hold : op.subgraphNamesToIndex.contains name = true
    · rw [addSubgraphName_old hold, filter_cons_of_neg (by simp [hold])]
      exact added_all h hnodup
    · rw [Bool.not_eq_true] at hold
      rw [filter_cons_of_pos (by simp [hold])]
      have hrest := added_all (slots_add h hold) hnodup
      have hsame : (names.filter fun n => !(op.addSubgraphName name).2.subgraphNamesToIndex.contains n) =
          names.filter fun n => !op.subgraphNamesToIndex.contains n := by
        refine filter_congr fun n hn => ?_
        have hne : n ≠ name := fun heq => hnot (heq ▸ hn)
        rw [addSubgraphName_new h hold, Bool.not_inj_iff, Bool.eq_iff_iff, contains_assign hold]
        exact or_iff_right hne
      rw [hsame] at hrest
      have hadd := congrArg Prod.snd (addSubgraphName_new h hold)
      exact hrest.cons hold (congrArg OpDesc.subgraphNamesToIndex hadd) (congrArg OpDesc.subgraphInstanceNames hadd) fun hmem =>
        hnot (mem_of_mem_filter hmem)

end

/-! ## Copying instance names -/

/-- Instance names written to slots that there are. -/
theorem setInstances : ∀ (xs : List String) (k : Nat) (op : OpDesc), k + xs.length ≤ op.subgraphInstanceNames.length →
    eachWhile (fun e op => op.setSubgraphInstanceName e.2 e.1) (xs.zipIdx k) op = (true, { op with
      subgraphInstanceNames := op.subgraphInstanceNames.take k ++ xs ++ op.subgraphInstanceNames.drop (k + xs.length) })
  | [], k, op, _ => by
    rw [append_nil, length_nil, Nat.add_zero, take_append_drop]
    rfl
  | x :: xs, k, op, h => by
    rw [length_cons] at h
    have hstep : op.setSubgraphInstanceName k x =
        (true, { op with subgraphInstanceNames := op.subgraphInstanceNames.set k x }) := by
      unfold setSubgraphInstanceName
      rw [if_neg (by omega)]
    have hrest := setInstances xs (k + 1) { op with subgraphInstanceNames := op.subgraphInstanceNames.set k x }
      (by rw [length_set]; omega)
    rw [zipIdx_cons, eachWhile, hstep]
    dsimp only at hrest ⊢
    have htake : (op.subgraphInstanceNames.set k x).take (k + 1) = op.subgraphInstanceNames.take k ++ [x] := by
      rw [take_add_one, take_set_of_le (Nat.le_refl k), getElem?_set_self (by omega)]
      rfl
    have hdrop : (op.subgraphInstanceNames.set k x).drop (k + 1 + xs.length) =
        op.subgraphInstanceNames.drop (k + (x :: xs).length) := by
      rw [drop_set_of_lt (by omega), length_cons]
      congr 1
      omega
    rw [hrest, htake, hdrop, append_assoc, append_assoc, append_assoc]
    rfl

/-- What mapping leaves of the names: it succeeds, as there is a slot for each name of the original. -/
theorem autoMappingByOpFn_names (namedAttrs : String → AttrHolder M → M.NamedAttrs) {src dst : MappedOp M}
    (hsrc : src.Slots) (hdst : dst.Slots) : ∃ op added,
    MappedOp.autoMappingByOpFn namedAttrs src dst = (true, op) ∧
      Added dst.toOpDesc added (newNames src.toOpDesc dst.toOpDesc)
        (List.replicate (newNames src.toOpDesc dst.toOpDesc).length "") ∧
      op.subgraphNamesToIndex = added.subgraphNamesToIndex ∧ op.subgraphInstanceNames =
        src.subgraphInstanceNames ++ added.subgraphInstanceNames.drop src.subgraphInstanceNames.length ∧
      src.subgraphInstanceNames.length ≤ added.subgraphInstanceNames.length := by
  have hadded := @added_all (src.subgraphNamesToIndex.map Prod.fst) (dst.setName src.getName).toOpDesc hdst hsrc.keys
  generalize hop : (src.subgraphNamesToIndex.map Prod.fst).foldl (fun op n => (op.addSubgraphName n).2)
    (dst.setName src.getName).toOpDesc = added at hadded
  have hroom : src.subgraphInstanceNames.length ≤ added.subgraphInstanceNames.length := by
    rw [← slots_length hsrc, ← slots_length hadded.slots]
    have hsub : src.subgraphNamesToIndex.map Prod.fst ⊆ added.subgraphNamesToIndex.map Prod.fst := by
      intro n hn
      by_contra hnot
      have hnone := OrderedMap.find_eq_none.mpr (OrderedMap.not_contains_iff.mpr hnot)
      rw [hadded.find n] at hnone
      split at hnone
      next => cases hnone
      next hnew =>
        refine hnew (mem_filter.mpr ⟨hn, ?_⟩)
        rw [OrderedMap.find_eq_none.mp hnone]
        rfl
    simpa using (hsrc.keys.subperm hsub).length_le
  rw [foldl_map] at hop
  have hset := setInstances src.subgraphInstanceNames 0 added (by omega)
  rw [take_zero, nil_append, Nat.zero_add] at hset
  unfold MappedOp.autoMappingByOpFn
  dsimp only
  rw [hop, hset]
  exact ⟨_, added, rfl, ⟨hadded.find, hadded.instances, hadded.slots⟩, rfl, rfl, hroom⟩

/-- The slot a name of the original has in the end, and what is in it. -/
theorem instanceOf_mapped {src dst op : MappedOp M} {added : OpDesc} {name : String}
    (hadded : Added dst.toOpDesc added (newNames src.toOpDesc dst.toOpDesc)
      (List.replicate (newNames src.toOpDesc dst.toOpDesc).length ""))
    (hnames : op.subgraphNamesToIndex = added.subgraphNamesToIndex)
    (hinstances : op.subgraphInstanceNames =
      src.subgraphInstanceNames ++ added.subgraphInstanceNames.drop src.subgraphInstanceNames.length)
    (hname : src.subgraphNamesToIndex.contains name = true) :
    op.instanceOf name = some (heldAfter src.toOpDesc dst.toOpDesc (slotAfter src.toOpDesc dst.toOpDesc name)) := by
  have hfind : added.subgraphNamesToIndex.find name = some (slotAfter src.toOpDesc dst.toOpDesc name) := by
    rw [hadded.find name]
    unfold slotAfter
    by_cases hnew : name ∈ newNames src.toOpDesc dst.toOpDesc
    · have hnone : dst.subgraphNamesToIndex.find name = none :=
        OrderedMap.find_eq_none.mpr (by simpa using (mem_filter.mp hnew).2)
      rw [if_pos hnew, hnone]
      rfl
    · have hold : dst.subgraphNamesToIndex.contains name = true := by
        by_contra hnot
        refine hnew (mem_filter.mpr ⟨?_, by simpa using hnot⟩)
        obtain ⟨index, hindex⟩ := OrderedMap.contains_iff.mp hname
        exact mem_map_of_mem hindex
      obtain ⟨slot, hslot⟩ := find_of_contains hold
      rw [if_neg hnew, hslot]
      rfl
  have hlt := hadded.slots.lt hfind
  generalize slotAfter src.toOpDesc dst.toOpDesc name = slot at hfind hlt
  unfold instanceOf heldAfter
  rw [hnames, hfind, Option.bind_some, hinstances]
  split
  next hin => rw [getElem?_append_left hin, getElem?_eq_getElem hin, getD_eq_getElem _ _ hin]
  next hout =>
    rw [getElem?_append_right (by omega), getElem?_drop, Nat.add_sub_cancel' (by omega)]
    rw [hadded.instances] at hlt ⊢
    rw [length_append, length_replicate] at hlt
    by_cases hold : slot < dst.subgraphInstanceNames.length
    · rw [getElem?_append_left hold, getElem?_eq_getElem hold, getD_eq_getElem _ _ hold]
    · rw [getElem?_append_right (by omega), getElem?_replicate, if_pos (by omega),
        getD_eq_default _ _ (by omega)]

end SubgraphBindingsAux

open OpDesc SubgraphBindingsAux in
/-- Mapping keeps what the names are resolved to if and only if each name gets a slot whose instance name is its own. -/
theorem keepsBindings_iff (namedAttrs : String → AttrHolder M → M.NamedAttrs) (src dst : MappedOp M) (hsrc : src.Slots)
    (hdst : dst.Slots) : KeepsBindings namedAttrs src dst ↔ Aligned src.toOpDesc dst.toOpDesc := by
  obtain ⟨op, added, hop, hadded, hnames, hinstances, -⟩ := autoMappingByOpFn_names namedAttrs hsrc hdst
  have hmapped := fun name => @instanceOf_mapped M src dst op added name hadded hnames hinstances
  have horiginal : ∀ name index, src.subgraphNamesToIndex.find name = some index →
      src.instanceOf name = some (src.subgraphInstanceNames.getD index "") := by
    intro name index hindex
    have hlt := hsrc.lt hindex
    rw [instanceOf, hindex, Option.bind_some, getElem?_eq_getElem hlt, getD_eq_getElem _ _ hlt]
  constructor
  · intro hkeeps name index hindex
    have hname : src.subgraphNamesToIndex.contains name = true := OrderedMap.contains_iff.mpr ⟨_, mem_of_find hindex⟩
    have hsame := hkeeps op hop name hname
    rw [hmapped name hname, horiginal name index hindex] at hsame
    exact Option.some.inj hsame
  · intro haligned op' hop' name hname
    obtain rfl := (Prod.ext_iff.mp (hop.symm.trans hop')).2
    obtain ⟨index, hindex⟩ := find_of_contains hname
    rw [hmapped name hname, horiginal name index hindex, haligned name index hindex]

namespace SubgraphBindingsWitness

/-- A branch in the order of its calls, and one with its slots in the order of the names. -/
def branch : MappedOp .trivial :=
  { subgraphNamesToIndex := [("else_branch", 1), ("then_branch", 0)], subgraphInstanceNames := ["then", "else"] }

def sorted : MappedOp .trivial :=
  { subgraphNamesToIndex := [("else_branch", 0), ("then_branch", 1)], subgraphInstanceNames := ["else", "then"] }

theorem slots_branch : branch.Slots := by
  unfold OpDesc.Slots
  decide

theorem slots_sorted : sorted.Slots := by
  unfold OpDesc.Slots
  decide

theorem slots_fresh : ({} : MappedOp .trivial).Slots := by
  unfold OpDesc.Slots
  decide

theorem keepsBindings_sorted : KeepsBindings (fun _ _ => ()) sorted {} ↔ OpDesc.Aligned sorted.toOpDesc {} :=
  keepsBindings_iff _ sorted {} slots_sorted slots_fresh

/-- The branches are exchanged. -/
theorem keepsBindings_false : ¬ ∀ (namedAttrs : String → AttrHolder .trivial → AttrMessages.trivial.NamedAttrs) (src dst : MappedOp .trivial),
    src.Slots → dst.Slots → KeepsBindings namedAttrs src dst := by
  intro h
  have hkeeps := h (fun _ _ => ()) branch {} slots_branch slots_fresh _ rfl "then_branch" (by decide)
  exact absurd hkeeps (by decide)

end SubgraphBindingsWitness

end Metadef
