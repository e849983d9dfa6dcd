import Mathlib
import Metadef.Theorems.SubgraphBindings

/-!
# The order of attributes

A node is mapped attribute by attribute, in the order its map has them. Two orders lead to one result where some attribute is refused
in every order, or where at most one of them adds subgraph names and none needs a name that another adds.
-/

namespace Metadef

open List OrderedMap

variable {M : AttrMessages}

namespace MappedOp

/-- An operator without its subgraph names and attributes. -/
def bare (op : MappedOp M) : MappedOp M := { op with subgraphNamesToIndex := [], attrs := [] }

/-- Two operators that differ at most in how their names and attributes are listed. -/
structure Same (a b : MappedOp M) : Prop where
  names : ∀ name, a.subgraphNamesToIndex.find name = b.subgraphNamesToIndex.find name
  attrs : ∀ key, a.attrs.find key = b.attrs.find key
  rest : a.bare = b.bare

/-- Two runs return the same, and leave the same operator when that is success. -/
def Agree (r r' : Bool × MappedOp M) : Prop := r.1 = r'.1 ∧ (r.1 = true → Same r.2 r'.2)

/-- Whether an attribute is one of subgraphs. -/
def binds (op : MappedOp M) (key : String) : Bool :=
  !(key = "input_tensor_desc" || key = "output_tensor_desc") && op.isSubgraphAttr key

/-- The names of the functions in a list, and that of a function. -/
def listSignatures : TfAttrValue → Option (List String)
  | .list _ _ _ _ _ _ _ func => some (func.map Prod.fst)
  | _ => none

def signature : TfAttrValue → Option String
  | .func name _ => some name
  | _ => none

variable (op : MappedOp M)

/-- The functions in the list of an attribute of subgraphs, and the subgraph names it adds for them. -/
def added (attr : String × TfAttrValue) : List String := if op.binds attr.1 then (listSignatures attr.2).getD [] else []

def addedNames (attr : String × TfAttrValue) : List String :=
  (List.range (op.added attr).length).map fun i => attr.1 ++ toString i

/-- An attribute of a subgraph sets the instance name of a name. -/
def NeedsName (attr : String × TfAttrValue) : Prop := op.binds attr.1 = true ∧ signature attr.2 ≠ none

/-- The names an operator has. -/
def subgraphNames : List String := op.subgraphNamesToIndex.map Prod.fst

/-- Some attribute is refused, whatever comes first: one of subgraphs is neither a function nor a list, a name is added twice, or a
name is needed that the operator does not have and that is not added. -/
def Refused (attr : List (String × TfAttrValue)) : Prop :=
  (∃ a ∈ attr, op.binds a.1 = true ∧ signature a.2 = none ∧ listSignatures a.2 = none) ∨
    ¬ (op.subgraphNames ++ attr.flatMap op.addedNames).Nodup ∨
    ∃ a ∈ attr, op.NeedsName a ∧ a.1 ∉ op.subgraphNames ++ attr.flatMap op.addedNames

/-- The operator has all names that are needed, and at most one attribute adds names. -/
def OneOrder (attr : List (String × TfAttrValue)) : Prop :=
  (∀ a ∈ attr, op.NeedsName a → a.1 ∈ op.subgraphNames) ∧
    ∀ a ∈ attr, ∀ b ∈ attr, op.added a ≠ [] → op.added b ≠ [] → a.1 = b.1

end MappedOp

namespace AttributeOrderAux

open MappedOp OpDesc SubgraphBindingsAux

/-! ## Adding the names of a list -/

section

variable {op op' : OpDesc} {key : String}

/-- The names of a list from a number on. -/
def namesFrom (key : String) (i n : Nat) : List String := (List.range n).map fun j => key ++ toString (i + j)

theorem namesFrom_succ (key : String) (i n : Nat) : namesFrom key i (n + 1) = (key ++ toString i) :: namesFrom key (i + 1) n := by
  unfold namesFrom
  rw [range_succ_eq_map, map_cons, map_map, Nat.add_zero]
  refine congrArg _ (map_congr_left fun j _ => ?_)
  rw [Function.comp_apply, Nat.succ_eq_add_one, Nat.add_assoc, Nat.add_comm 1 j]

theorem namesFrom_nodup (key : String) (i n : Nat) : (namesFrom key i n).Nodup := by
  refine nodup_range.map fun j j' h => ?_
  have hnumber : i + j = i + j' := Nat.repr_injective ((String.append_right_inj key).mp h)
  omega

/-- An operator with one name more. -/
def withName (op : OpDesc) (name signature : String) : OpDesc :=
  { op with
    subgraphNamesToIndex := op.subgraphNamesToIndex.assign name op.subgraphNamesToIndex.length
    subgraphInstanceNames := op.subgraphInstanceNames ++ [signature] }

theorem slots_withName {name : String} (h : op.Slots) (hnew : op.subgraphNamesToIndex.contains name = false)
    (signature : String) : (withName op name signature).Slots := by
  have hslots := slots_add h hnew
  rw [addSubgraphName_new h hnew] at hslots
  unfold Slots withName at *
  simpa using hslots

theorem addSubgraphs_cons {signature : String} {rest : List String} {i : Nat} (h : op.Slots)
    (hnew : op.subgraphNamesToIndex.contains (key ++ toString i) = false) :
    addSubgraphs key (signature :: rest) i op = addSubgraphs key rest (i + 1) (withName op (key ++ toString i) signature) := by
  have hset : (op.subgraphInstanceNames ++ [""]).set op.subgraphInstanceNames.length signature =
      op.subgraphInstanceNames ++ [signature] := by
    rw [set_append_right _ _ (Nat.le_refl _), Nat.sub_self]
    rfl
  rw [addSubgraphs, addSubgraphName_new h hnew]
  dsimp only
  unfold OpDescUtils.setSubgraphInstanceName
  dsimp only
  rw [find_assign, if_pos rfl]
  dsimp only
  unfold setSubgraphInstanceName
  dsimp only
  rw [if_neg (by rw [length_append, slots_length h]; exact Nat.not_le.mpr (Nat.lt_succ_self _)), slots_length h, hset,
    withName, slots_length h]

/-- Names that are all new are added, with the signatures in their slots. -/
theorem addSubgraphs_new : ∀ {signatures : List String} {i : Nat} {op : OpDesc}, op.Slots →
    (∀ n ∈ namesFrom key i signatures.length, op.subgraphNamesToIndex.contains n = false) →
    ∃ op', addSubgraphs key signatures i op = (true, op') ∧ Added op op' (namesFrom key i signatures.length) signatures ∧
      { op' with subgraphNamesToIndex := [], subgraphInstanceNames := [] } =
        { op with subgraphNamesToIndex := [], subgraphInstanceNames := [] }
  | [], _, op, h, _ => ⟨op, rfl, added_nil h, rfl⟩
  | signature :: rest, i, op, h, hnew => by
    rw [length_cons, namesFrom_succ] at hnew ⊢
    obtain ⟨hname, hrest⟩ := forall_mem_cons.mp hnew
    have hnot : key ++ toString i ∉ namesFrom key (i + 1) rest.length := by
      have hnodup := namesFrom_nodup key i (rest.length + 1)
      rw [namesFrom_succ] at hnodup
      exact (nodup_cons.mp hnodup).1
    have hrest' : ∀ n ∈ namesFrom key (i + 1) rest.length,
        (withName op (key ++ toString i) signature).subgraphNamesToIndex.contains n = false := by
      intro n hn
      have hne : n ≠ key ++ toString i := fun heq => hnot (heq ▸ hn)
      rw [Bool.eq_false_iff, withName, Ne, contains_assign hname, not_or]
      exact ⟨hne, by simp [hrest n hn]⟩
    obtain ⟨op', hop', hadded, hbare⟩ := addSubgraphs_new (slots_withName h hname signature) hrest'
    exact ⟨op', (addSubgraphs_cons h hname).trans hop', hadded.cons hname rfl rfl hnot, hbare⟩

/-- A name that is there already ends the loop. -/
theorem addSubgraphs_old : ∀ {signatures : List String} {i : Nat} {op : OpDesc}, op.Slots →
    (∃ n ∈ namesFrom key i signatures.length, op.subgraphNamesToIndex.contains n = true) →
    (addSubgraphs key signatures i op).1 = false
  | [], _, _, _, h => by simp [namesFrom] at h
  | signature :: rest, i, op, h, hold => by
    rw [length_cons, namesFrom_succ] at hold
    by_cases hname : op.subgraphNamesToIndex.contains (key ++ toString i) = true
    · rw [addSubgraphs, addSubgraphName_old hname]
    · rw [Bool.not_eq_true] at hname
      rw [addSubgraphs_cons h hname]
      obtain ⟨n, hn, hcontains⟩ := hold
      rcases mem_cons.mp hn with rfl | hn
      · rw [hname] at hcontains
        cases hcontains
      · exact addSubgraphs_old (slots_withName h hname signature)
          ⟨n, hn, (contains_assign hname).mpr (Or.inr hcontains)⟩

end

/-! ## What a run leaves -/

section

variable (convertTensor : TensorProto → Option (GeTensor M)) (namedAttrs : String → AttrHolder M → M.NamedAttrs)
  (op : MappedOp M)

/-- The value of a key after an attribute. -/
def attrStep (key : String) (value : Option (AttrDef M)) (a : String × TfAttrValue) : Option (AttrDef M) :=
  if a.1 = key ∧ ¬ (a.1 = "input_tensor_desc" ∨ a.1 = "output_tensor_desc") ∧ op.isSubgraphAttr a.1 = false then
    match AutoMappingUtil.converted convertTensor namedAttrs a.2 with
    | none => value
    | some ⟨t, x⟩ => some (GeAttrValueImp.setValue t x (value.getD .notSet)).2
  else value

/-- The instance names in the slots there were, after an attribute. -/
def bindStep (instances : List String) (a : String × TfAttrValue) : List String :=
  match (if op.binds a.1 then signature a.2 else none), op.subgraphNamesToIndex.find a.1 with
  | some name, some slot => instances.set slot name
  | _, _ => instances

/-- An operator after some attributes of a node. -/
structure Ran (done : List (String × TfAttrValue)) (op' : MappedOp M) : Prop where
  slots : op'.Slots
  length : op'.subgraphNamesToIndex.length = op.subgraphNamesToIndex.length + (done.flatMap op.addedNames).length
  names : ∀ n, op'.subgraphNamesToIndex.find n =
    if n ∈ done.flatMap op.addedNames then some (op.subgraphNamesToIndex.length + (done.flatMap op.addedNames).idxOf n)
    else op.subgraphNamesToIndex.find n
  instances : (∀ a ∈ done, op.NeedsName a → a.1 ∈ op.subgraphNames) →
    op'.subgraphInstanceNames = done.foldl (bindStep op) op.subgraphInstanceNames ++ done.flatMap op.added
  attrs : ∀ key, op'.attrs.find key = done.foldl (attrStep convertTensor namedAttrs op key) (op.attrs.find key)
  rest : { op'.bare with subgraphInstanceNames := [] } = { op.bare with subgraphInstanceNames := [] }

/-- After some attributes the next one is accepted. -/
structure Accepts (done : List (String × TfAttrValue)) (a : String × TfAttrValue) : Prop where
  kind : op.binds a.1 = true → signature a.2 ≠ none ∨ listSignatures a.2 ≠ none
  fresh : ∀ n ∈ op.addedNames a, n ∉ op.subgraphNames ++ done.flatMap op.addedNames
  found : op.NeedsName a → a.1 ∈ op.subgraphNames ++ done.flatMap op.addedNames

variable {convertTensor namedAttrs op} {done : List (String × TfAttrValue)} {op' : MappedOp M} {a : String × TfAttrValue}

theorem ran_nil (h : op.Slots) : Ran convertTensor namedAttrs op [] op :=
  ⟨h, rfl, fun _ => rfl, fun _ => (append_nil _).symm, fun _ => rfl, rfl⟩

theorem addedNames_eq (op : MappedOp M) (a : String × TfAttrValue) : op.addedNames a = namesFrom a.1 0 (op.added a).length := by
  simp [addedNames, namesFrom]

/-- The names at that time. -/
theorem Ran.contains (h : Ran convertTensor namedAttrs op done op') (n : String) :
    op'.subgraphNamesToIndex.contains n = true ↔ n ∈ op.subgraphNames ++ done.flatMap op.addedNames := by
  have hfind := h.names n
  rw [mem_append]
  by_cases hadded : n ∈ done.flatMap op.addedNames
  · rw [if_pos hadded] at hfind
    exact iff_of_true (OrderedMap.contains_iff.mpr ⟨_, mem_of_find hfind⟩) (Or.inr hadded)
  · rw [if_neg hadded] at hfind
    rw [or_iff_left hadded, ← Bool.not_eq_false, ← find_eq_none, hfind, find_eq_none,
      not_contains_iff, not_not]
    rfl

theorem not_needsName (h : op.binds a.1 = false) : ¬ op.NeedsName a := fun hneeds =>
  Bool.false_ne_true (h.symm.trans hneeds.1)

theorem bindStep_other {instances : List String} (h : ¬ op.NeedsName a) : bindStep op instances a = instances := by
  unfold bindStep
  by_cases hbinds : op.binds a.1 = true
  · rw [if_pos hbinds]
    cases hsig : signature a.2 with
    | none => rfl
    | some name => exact absurd ⟨hbinds, by rw [hsig]; exact Option.some_ne_none _⟩ h
  · rw [if_neg hbinds]

theorem addedNames_nil (h : op.added a = []) : op.addedNames a = [] := by rw [addedNames, h]; rfl

theorem added_of_not_binds (h : op.binds a.1 = false) : op.added a = [] := by
  rw [added, if_neg (by simp [h])]

theorem added_of_signature (h : signature a.2 ≠ none) : op.added a = [] := by
  obtain ⟨key, value⟩ := a
  unfold added
  cases value with
  | func name attr => exact ite_self _
  | _ => exact absurd rfl h

variable {signatures : List String}

theorem signature_of_list (h : listSignatures a.2 = some signatures) : signature a.2 = none := by
  obtain ⟨key, value⟩ := a
  cases value with
  | list s i f b type shape tensor func => rfl
  | _ => cases h

/-- An attribute that adds no names leaves them. -/
theorem Ran.quiet {op'' : MappedOp M} (h : Ran convertTensor namedAttrs op done op') (hadded : op.added a = [])
    (hnames : op''.subgraphNamesToIndex = op'.subgraphNamesToIndex) (hslots : op''.Slots)
    (hinstances : (∀ b ∈ done ++ [a], op.NeedsName b → b.1 ∈ op.subgraphNames) →
      op''.subgraphInstanceNames = bindStep op (done.foldl (bindStep op) op.subgraphInstanceNames) a ++ done.flatMap op.added)
    (hattrs : ∀ key, op''.attrs.find key = attrStep convertTensor namedAttrs op key (op'.attrs.find key) a)
    (hrest : { op''.bare with subgraphInstanceNames := [] } = { op'.bare with subgraphInstanceNames := [] }) :
    Ran convertTensor namedAttrs op (done ++ [a]) op'' := by
  have hsame : (done ++ [a]).flatMap op.addedNames = done.flatMap op.addedNames := by
    rw [flatMap_append, flatMap_singleton, addedNames_nil hadded, append_nil]
  refine ⟨hslots, ?_, fun n => ?_, fun hall => ?_, fun key => ?_, hrest.trans h.rest⟩
  · rw [hnames, hsame]
    exact h.length
  · rw [hnames, hsame]
    exact h.names n
  · rw [foldl_concat, flatMap_append, flatMap_singleton, hadded, append_nil]
    exact hinstances hall
  · rw [foldl_concat, hattrs, h.attrs]

/-- An attribute that is not one of subgraphs is always taken. -/
theorem ran_plain (h : Ran convertTensor namedAttrs op done op') (hbinds : op.binds a.1 = false) :
    ∃ op'', mapAttr convertTensor namedAttrs op.isSubgraphAttr a op' = (true, op'') ∧
      Ran convertTensor namedAttrs op (done ++ [a]) op'' := by
  have hadded := added_of_not_binds hbinds
  have hneeds := not_needsName hbinds
  have hinstances : (∀ b ∈ done ++ [a], op.NeedsName b → b.1 ∈ op.subgraphNames) →
      op'.subgraphInstanceNames =
        bindStep op (done.foldl (bindStep op) op.subgraphInstanceNames) a ++ done.flatMap op.added := by
    intro hall
    rw [bindStep_other hneeds]
    exact h.instances fun b hb => hall b (mem_append_left _ hb)
  unfold mapAttr
  by_cases hskip : a.1 = "input_tensor_desc" ∨ a.1 = "output_tensor_desc"
  · rw [if_pos hskip]
    exact ⟨op', rfl, h.quiet hadded rfl h.slots hinstances (fun key => (if_neg fun hplain => hplain.2.1 hskip).symm) rfl⟩
  · have hother : op.isSubgraphAttr a.1 = false := by
      unfold binds at hbinds
      rcases not_or.mp hskip with ⟨hin, hout⟩
      simpa [hin, hout] using hbinds
    rw [if_neg hskip, hother, if_neg Bool.false_ne_true]
    refine ⟨_, rfl, h.quiet hadded rfl h.slots hinstances (fun key => ?_) rfl⟩
    unfold attrStep AutoMappingUtil.convertValue AutoMappingUtil.setConverted holder
    by_cases hkey : a.1 = key
    · rw [if_pos ⟨hkey, hskip, hother⟩, ← hkey]
      cases AutoMappingUtil.converted convertTensor namedAttrs a.2 with
      | none => rfl
      | some value => exact (find_assign ..).trans (if_pos rfl)
    · rw [if_neg fun hplain => hkey hplain.1]
      cases AutoMappingUtil.converted convertTensor namedAttrs a.2 with
      | none => rfl
      | some value => exact (find_assign ..).trans (if_neg (Ne.symm hkey))

theorem binds_iff : op.binds a.1 = true ↔
    ¬ (a.1 = "input_tensor_desc" ∨ a.1 = "output_tensor_desc") ∧ op.isSubgraphAttr a.1 = true := by
  simp [binds, not_or]

theorem autoMappingFunction_func {name : String} (h : signature a.2 = some name) : autoMappingFunction a.1 a.2 op' =
    ((OpDescUtils.setSubgraphInstanceName a.1 name op'.toOpDesc).1,
      { op' with toOpDesc := (OpDescUtils.setSubgraphInstanceName a.1 name op'.toOpDesc).2 }) := by
  obtain ⟨key, value⟩ := a
  cases value with
  | func name' attr =>
    obtain rfl := Option.some.inj h
    rfl
  | _ => cases h

theorem autoMappingFunction_list (h : listSignatures a.2 = some signatures) : autoMappingFunction a.1 a.2 op' =
      ((addSubgraphs a.1 signatures 0 op'.toOpDesc).1, { op' with toOpDesc := (addSubgraphs a.1 signatures 0 op'.toOpDesc).2 }) := by
  obtain ⟨key, value⟩ := a
  cases value with
  | list s i f b type shape tensor func =>
    obtain rfl := Option.some.inj h
    rfl
  | _ => cases h

theorem autoMappingFunction_other (h : signature a.2 = none) (h' : listSignatures a.2 = none) :
    autoMappingFunction a.1 a.2 op' = (false, op') := by
  obtain ⟨key, value⟩ := a
  cases value with
  | func name attr => cases h
  | list s i f b type shape tensor func => cases h'
  | _ => rfl

theorem length_bindStep (instances : List String) (a : String × TfAttrValue) : (bindStep op instances a).length = instances.length := by
  unfold bindStep
  split
  · rw [length_set]
  · rfl

theorem length_bound (done : List (String × TfAttrValue)) (instances : List String) :
    (done.foldl (bindStep op) instances).length = instances.length := by
  induction done generalizing instances with
  | nil => rfl
  | cons a done ih => rw [foldl_cons, ih, length_bindStep]

/-- A function is the instance name of a name that there is. -/
theorem ran_func (h : Ran convertTensor namedAttrs op done op') (hop : op.Slots) (hneeds : op.NeedsName a)
    (hfound : a.1 ∈ op.subgraphNames ++ done.flatMap op.addedNames)
    (hnodup : (op.subgraphNames ++ done.flatMap op.addedNames).Nodup) :
    ∃ op'', mapAttr convertTensor namedAttrs op.isSubgraphAttr a op' = (true, op'') ∧
      Ran convertTensor namedAttrs op (done ++ [a]) op'' := by
  obtain ⟨slot, hslot⟩ := find_of_contains ((h.contains a.1).mpr hfound)
  have hlt : slot < op'.subgraphInstanceNames.length := h.slots.lt hslot
  obtain ⟨hskip, hsub⟩ := binds_iff.mp hneeds.1
  obtain ⟨name, hname⟩ := Option.ne_none_iff_exists'.mp hneeds.2
  have hmap : mapAttr convertTensor namedAttrs op.isSubgraphAttr a op' = (true, { op' with
      subgraphInstanceNames := op'.subgraphInstanceNames.set slot name }) := by
    unfold mapAttr
    rw [if_neg hskip, if_pos hsub, autoMappingFunction_func hname]
    unfold OpDescUtils.setSubgraphInstanceName
    rw [hslot]
    dsimp only
    unfold setSubgraphInstanceName
    rw [if_neg (Nat.not_le.mpr hlt)]
  refine ⟨_, hmap, h.quiet (added_of_signature hneeds.2) rfl ?_ (fun hall => ?_) (fun key => ?_) rfl⟩
  · unfold Slots
    dsimp only
    rw [length_set]
    exact h.slots
  · -- the slot is one of those there were
    have hold := hall a (mem_append_right _ (mem_singleton_self a)) hneeds
    have hnew : a.1 ∉ done.flatMap op.addedNames := fun hin => (nodup_append.mp hnodup).2.2 _ hold _ hin rfl
    have hfind := h.names a.1
    rw [if_neg hnew, hslot] at hfind
    have hbound : slot < (done.foldl (bindStep op) op.subgraphInstanceNames).length := by
      rw [length_bound]
      exact hop.lt hfind.symm
    dsimp only
    rw [h.instances fun b hb => hall b (mem_append_left _ hb), set_append_left _ _ hbound, bindStep, if_pos hneeds.1,
      hname, ← hfind]
  · exact (if_neg fun hplain => by rw [hplain.2.2] at hsub; cases hsub).symm

/-- The functions in a list are the instance names of names that there are not. -/
theorem ran_list (h : Ran convertTensor namedAttrs op done op') (hbinds : op.binds a.1 = true)
    (hlist : listSignatures a.2 = some signatures)
    (hfresh : ∀ n ∈ op.addedNames a, n ∉ op.subgraphNames ++ done.flatMap op.addedNames) :
    ∃ op'', mapAttr convertTensor namedAttrs op.isSubgraphAttr a op' = (true, op'') ∧
      Ran convertTensor namedAttrs op (done ++ [a]) op'' := by
  obtain ⟨hskip, hsub⟩ := binds_iff.mp hbinds
  have hadded : op.added a = signatures := by rw [added, if_pos hbinds, hlist]; rfl
  have hnames := addedNames_eq op a
  rw [hadded] at hnames
  have hnew : ∀ n ∈ namesFrom a.1 0 signatures.length, op'.subgraphNamesToIndex.contains n = false := by
    intro n hn
    rw [← hnames] at hn
    exact Bool.not_eq_true _ ▸ fun hold => hfresh n hn ((h.contains n).mp hold)
  obtain ⟨desc, hdesc, hnewNames, hrest⟩ := addSubgraphs_new h.slots hnew
  have hmap : mapAttr convertTensor namedAttrs op.isSubgraphAttr a op' = (true, { op' with toOpDesc := desc }) := by
    unfold mapAttr
    rw [if_neg hskip, if_pos hsub, autoMappingFunction_list hlist, hdesc]
  rw [← hnames] at hnewNames
  have hneeds : ¬ op.NeedsName a := fun hneeds => by
    rw [added_of_signature hneeds.2] at hadded
    exact hneeds.2 (signature_of_list hlist)
  have hflat : (done ++ [a]).flatMap op.addedNames = done.flatMap op.addedNames ++ op.addedNames a := by
    rw [flatMap_append, flatMap_singleton]
  refine ⟨_, hmap, hnewNames.slots, ?_, fun n => ?_, fun hall => ?_, fun key => ?_, ?_⟩
  · have hlen := congrArg List.length hnewNames.instances
    rw [length_append, ← slots_length hnewNames.slots, ← slots_length h.slots, h.length] at hlen
    rw [hflat, length_append, hlen, hnames, namesFrom, length_map, length_range, Nat.add_assoc]
  · rw [hflat, hnewNames.find n, h.names n, h.length]
    by_cases hbefore : n ∈ done.flatMap op.addedNames
    · have hnot : n ∉ op.addedNames a := fun hn => hfresh n hn (mem_append_right _ hbefore)
      rw [if_neg hnot, if_pos hbefore, if_pos (mem_append_left _ hbefore), idxOf_append_of_mem hbefore]
    · rw [if_neg hbefore]
      by_cases hn : n ∈ op.addedNames a
      · rw [if_pos hn, if_pos (mem_append_right _ hn), idxOf_append_of_notMem hbefore, Nat.add_assoc]
      · rw [if_neg hn, if_neg fun hin => (mem_append.mp hin).elim hbefore hn]
  · rw [foldl_concat, bindStep_other hneeds, flatMap_append, flatMap_singleton, hadded, ← append_assoc]
    refine hnewNames.instances.trans (congrArg (· ++ signatures) ?_)
    exact h.instances fun b hb => hall b (mem_append_left _ hb)
  · rw [foldl_concat]
    exact (h.attrs key).trans (if_neg fun hplain => by rw [hplain.2.2] at hsub; cases hsub).symm
  · refine Eq.trans ?_ h.rest
    exact congrArg (fun desc : OpDesc => ({ op' with toOpDesc := desc, attrs := [] } : MappedOp M)) hrest

/-- An attribute that is not accepted ends the run. -/
theorem refused_step (h : Ran convertTensor namedAttrs op done op') (hnot : ¬ Accepts op done a) :
    (mapAttr convertTensor namedAttrs op.isSubgraphAttr a op').1 = false := by
  have hbinds : op.binds a.1 = true := by
    by_contra hbinds
    rw [Bool.not_eq_true] at hbinds
    refine hnot ⟨fun h => absurd (hbinds.symm.trans h) Bool.false_ne_true, fun n hn => ?_, fun h => absurd h (not_needsName hbinds)⟩
    rw [addedNames_nil (added_of_not_binds hbinds)] at hn
    cases hn
  obtain ⟨hskip, hsub⟩ := binds_iff.mp hbinds
  unfold mapAttr
  rw [if_neg hskip, if_pos hsub]
  cases hsig : signature a.2 with
  | some name =>
    have hnames := addedNames_nil (@added_of_signature M op a (by rw [hsig]; exact Option.some_ne_none name))
    have hmissing : op'.subgraphNamesToIndex.find a.1 = none := by
      refine OrderedMap.find_eq_none.mpr (Bool.not_eq_true _ ▸ fun hold => hnot ⟨fun _ => Or.inl ?_, fun n hn => ?_, fun _ => ?_⟩)
      · rw [hsig]
        exact Option.some_ne_none name
      · rw [hnames] at hn
        cases hn
      · exact (h.contains a.1).mp hold
    rw [autoMappingFunction_func hsig]
    unfold OpDescUtils.setSubgraphInstanceName
    rw [hmissing]
  | none =>
    cases hlist : listSignatures a.2 with
    | none => rw [autoMappingFunction_other hsig hlist]
    | some signatures =>
      have hadded : op.added a = signatures := by rw [added, if_pos hbinds, hlist]; rfl
      have hnames := addedNames_eq op a
      rw [hadded] at hnames
      rw [autoMappingFunction_list hlist]
      refine addSubgraphs_old h.slots ?_
      by_contra hfresh
      refine hnot ⟨fun _ => Or.inr ?_, fun n hn hin => ?_, fun hneeds => absurd hsig hneeds.2⟩
      · rw [hlist]
        exact Option.some_ne_none signatures
      · exact hfresh ⟨n, hnames ▸ hn, (h.contains n).mpr hin⟩

/-- One that is accepted is taken. -/
theorem accepted_step (h : Ran convertTensor namedAttrs op done op') (hop : op.Slots)
    (hnodup : (op.subgraphNames ++ done.flatMap op.addedNames).Nodup) (hacc : Accepts op done a) :
    ∃ op'', mapAttr convertTensor namedAttrs op.isSubgraphAttr a op' = (true, op'') ∧
      Ran convertTensor namedAttrs op (done ++ [a]) op'' := by
  by_cases hbinds : op.binds a.1 = true
  · rcases hacc.kind hbinds with hsig | hlist
    · exact ran_func h hop ⟨hbinds, hsig⟩ (hacc.found ⟨hbinds, hsig⟩) hnodup
    · obtain ⟨signatures, hlist⟩ := Option.ne_none_iff_exists'.mp hlist
      exact ran_list h hbinds hlist hacc.fresh
  · exact ran_plain h (by simpa using hbinds)

theorem Accepts.nodup (hacc : Accepts op done a) (hnodup : (op.subgraphNames ++ done.flatMap op.addedNames).Nodup) :
    (op.subgraphNames ++ (done ++ [a]).flatMap op.addedNames).Nodup := by
  rw [flatMap_append, flatMap_singleton, ← append_assoc]
  refine nodup_append.mpr ⟨hnodup, addedNames_eq op a ▸ namesFrom_nodup .., fun n hn n' hn' heq => ?_⟩
  exact hacc.fresh n' hn' (heq ▸ hn)

end

/-- Names of one slot are one. -/
theorem slots_inj {desc : OpDesc} (h : desc.Slots) {a b : String} {slot : Nat} (ha : desc.subgraphNamesToIndex.find a = some slot)
    (hb : desc.subgraphNamesToIndex.find b = some slot) : a = b := by
  have hnodup : (desc.subgraphNamesToIndex.map Prod.snd).Nodup := h.positions.nodup_iff.mpr nodup_range
  exact congrArg Prod.fst (inj_on_of_nodup_map hnodup (mem_of_find ha) (mem_of_find hb) rfl)

/-! ## Runs -/

section

variable (op : MappedOp M)

/-- Attributes are accepted one after the other. -/
def AcceptsAll : (done todo : List (String × TfAttrValue)) → Prop
  | _, [] => True
  | done, a :: todo => Accepts op done a ∧ AcceptsAll (done ++ [a]) todo

/-- The names that are needed are there when they are. -/
def FoundAll : (done todo : List (String × TfAttrValue)) → Prop
  | _, [] => True
  | done, a :: todo =>
    (op.NeedsName a → a.1 ∈ op.subgraphNames ++ done.flatMap op.addedNames) ∧ FoundAll (done ++ [a]) todo

variable {convertTensor : TensorProto → Option (GeTensor M)} {namedAttrs : String → AttrHolder M → M.NamedAttrs}
  {op} {done todo : List (String × TfAttrValue)} {op' : MappedOp M} {a : String × TfAttrValue}

theorem run_accepted (hop : op.Slots) : ∀ {todo done : List (String × TfAttrValue)} {op' : MappedOp M},
    Ran convertTensor namedAttrs op done op' → (op.subgraphNames ++ done.flatMap op.addedNames).Nodup → AcceptsAll op done todo →
    ∃ op'', eachWhile (mapAttr convertTensor namedAttrs op.isSubgraphAttr) todo op' = (true, op'') ∧
      Ran convertTensor namedAttrs op (done ++ todo) op''
  | [], done, op', h, _, _ => ⟨op', rfl, by rwa [append_nil]⟩
  | a :: todo, done, op', h, hnodup, hacc => by
    obtain ⟨op₁, hstep, h₁⟩ := accepted_step h hop hnodup hacc.1
    obtain ⟨op'', hrun, h''⟩ := run_accepted hop h₁ (hacc.1.nodup hnodup) hacc.2
    refine ⟨op'', ?_, by rwa [append_assoc] at h''⟩
    rw [eachWhile, hstep]
    exact hrun

theorem run_refused (hop : op.Slots) : ∀ {todo done : List (String × TfAttrValue)} {op' : MappedOp M},
    Ran convertTensor namedAttrs op done op' → (op.subgraphNames ++ done.flatMap op.addedNames).Nodup → ¬ AcceptsAll op done todo →
    (eachWhile (mapAttr convertTensor namedAttrs op.isSubgraphAttr) todo op').1 = false
  | [], _, _, _, _, hnot => absurd trivial hnot
  | a :: todo, done, op', h, hnodup, hnot => by
    rw [eachWhile]
    by_cases hacc : Accepts op done a
    · obtain ⟨op₁, hstep, h₁⟩ := accepted_step h hop hnodup hacc
      rw [hstep]
      exact run_refused hop h₁ (hacc.nodup hnodup) fun hall => hnot ⟨hacc, hall⟩
    · have hstep := @refused_step M convertTensor namedAttrs _ _ _ _ h hacc
      generalize mapAttr convertTensor namedAttrs op.isSubgraphAttr a op' = r at hstep
      obtain ⟨ok, op₁⟩ := r
      obtain rfl : ok = false := hstep
      rfl

theorem acceptsAll_iff : ∀ {todo done : List (String × TfAttrValue)}, (op.subgraphNames ++ done.flatMap op.addedNames).Nodup →
    (AcceptsAll op done todo ↔
      (∀ a ∈ todo, op.binds a.1 = true → signature a.2 ≠ none ∨ listSignatures a.2 ≠ none) ∧
        (op.subgraphNames ++ (done ++ todo).flatMap op.addedNames).Nodup ∧ FoundAll op done todo)
  | [], done, hnodup => by
    rw [append_nil]
    exact iff_of_true trivial ⟨nofun, hnodup, trivial⟩
  | a :: todo, done, hnodup => by
    have hsplit : done ++ a :: todo = (done ++ [a]) ++ todo := by rw [append_assoc]; rfl
    rw [hsplit, forall_mem_cons]
    constructor
    · rintro ⟨hacc, hall⟩
      obtain ⟨hkind, hdistinct, hfound⟩ := (acceptsAll_iff (hacc.nodup hnodup)).mp hall
      exact ⟨⟨hacc.kind, hkind⟩, hdistinct, hacc.found, hfound⟩
    · rintro ⟨⟨hkind, hkinds⟩, hdistinct, hfound, hfounds⟩
      have hacc : Accepts op done a := by
        refine ⟨hkind, fun n hn hin => ?_, hfound⟩
        rw [append_assoc, flatMap_append, flatMap_append, flatMap_singleton, ← append_assoc] at hdistinct
        exact (nodup_append.mp hdistinct).2.2 n hin n (mem_append_left _ hn) rfl
      exact ⟨hacc, (acceptsAll_iff (hacc.nodup hnodup)).mpr ⟨hkinds, hdistinct, hfounds⟩⟩

theorem mem_names_append {n : String} (h : n ∈ op.subgraphNames ++ done.flatMap op.addedNames) (more : List (String × TfAttrValue)) :
    n ∈ op.subgraphNames ++ (done ++ more).flatMap op.addedNames := by
  rw [flatMap_append, ← append_assoc]
  exact mem_append_left _ h

/-- Names that are there before. -/
theorem foundAll_of_forall : ∀ {todo done : List (String × TfAttrValue)},
    (∀ a ∈ todo, op.NeedsName a → a.1 ∈ op.subgraphNames ++ done.flatMap op.addedNames) → FoundAll op done todo
  | [], _, _ => trivial
  | a :: todo, done, h => by
    obtain ⟨ha, hall⟩ := forall_mem_cons.mp h
    exact ⟨ha, foundAll_of_forall fun b hb hneeds => mem_names_append (hall b hb hneeds) [a]⟩

/-- A name that is needed is one of those that are there or added. -/
theorem FoundAll.mem : ∀ {todo done : List (String × TfAttrValue)}, FoundAll op done todo →
    ∀ a ∈ todo, op.NeedsName a → a.1 ∈ op.subgraphNames ++ (done ++ todo).flatMap op.addedNames
  | b :: todo, done, ⟨hb, hall⟩, a, ha, hneeds => by
    rcases mem_cons.mp ha with rfl | ha
    · exact mem_names_append (hb hneeds) (a :: todo)
    · have hmem := hall.mem a ha hneeds
      rwa [append_assoc] at hmem

theorem foundAll_append : ∀ {l l' done : List (String × TfAttrValue)},
    FoundAll op done (l ++ l') ↔ FoundAll op done l ∧ FoundAll op (done ++ l) l'
  | [], l', done => by
    rw [nil_append, append_nil]
    exact (iff_of_eq (true_and _)).symm
  | a :: l, l', done => by
    have hsplit : done ++ a :: l = (done ++ [a]) ++ l := by rw [append_assoc]; rfl
    rw [cons_append, hsplit]
    exact (and_congr_right fun _ => foundAll_append).trans and_assoc.symm

/-- Attributes of one key are one where keys do not repeat. -/
theorem eq_of_key {attr : List (String × TfAttrValue)} (hkeys : (attr.map Prod.fst).Nodup) {a b : String × TfAttrValue}
    (ha : a ∈ attr) (hb : b ∈ attr) (hab : a.1 = b.1) : a = b := inj_on_of_nodup_map hkeys ha hb hab

variable {l l' : List (String × TfAttrValue)}

/-- Where one attribute at most has something, what all have is what it has. -/
theorem flatMap_perm {α : Type} {f : String × TfAttrValue → List α} (hperm : l.Perm l')
    (hkeys : (l.map Prod.fst).Nodup) (hone : ∀ a ∈ l, ∀ b ∈ l, f a ≠ [] → f b ≠ [] → a.1 = b.1) :
    l.flatMap f = l'.flatMap f := by
  induction hperm with
  | nil => rfl
  | cons a _ ih =>
    rw [flatMap_cons, flatMap_cons, ih (nodup_cons.mp hkeys).2 fun b hb c hc =>
      hone b (mem_cons_of_mem a hb) c (mem_cons_of_mem a hc)]
  | swap a b l =>
    rw [flatMap_cons, flatMap_cons, flatMap_cons, flatMap_cons]
    by_cases ha : f a = []
    · rw [ha, nil_append, nil_append]
    · by_cases hb : f b = []
      · rw [hb, nil_append, nil_append]
      · have hab := hone b (by simp) a (by simp) hb ha
        exact absurd (by simp [hab]) (nodup_cons.mp hkeys).1
  | trans h₁ h₂ ih₁ ih₂ =>
    refine (ih₁ hkeys hone).trans (ih₂ ((h₁.map Prod.fst).nodup_iff.mp hkeys) fun a ha b hb => ?_)
    exact hone a (h₁.mem_iff.mpr ha) b (h₁.mem_iff.mpr hb)

/-- The values of keys do not depend on the order. -/
theorem attrs_perm (hperm : l.Perm l') (hkeys : (l.map Prod.fst).Nodup) (key : String) (value : Option (AttrDef M)) :
    l.foldl (attrStep convertTensor namedAttrs op key) value = l'.foldl (attrStep convertTensor namedAttrs op key) value := by
  refine hperm.foldl_eq' (fun a ha b hb value => ?_) value
  by_cases hab : a.1 = b.1
  · rw [eq_of_key hkeys ha hb hab]
  · -- one of the two is of another key
    unfold attrStep
    by_cases hkey : a.1 = key
    · have hb' : ¬ b.1 = key := fun h => hab (hkey.trans h.symm)
      simp only [hb', false_and, if_false]
    · simp only [hkey, false_and, if_false]

/-- Neither do the instance names in the slots there were. -/
theorem bound_perm (hop : op.Slots) (hperm : l.Perm l') (hkeys : (l.map Prod.fst).Nodup)
    (instances : List String) : l.foldl (bindStep op) instances = l'.foldl (bindStep op) instances := by
  refine hperm.foldl_eq' (fun a ha b hb instances => ?_) instances
  by_cases hab : a.1 = b.1
  · rw [eq_of_key hkeys ha hb hab]
  · unfold bindStep
    cases hsa : (if op.binds a.1 then signature a.2 else none) with
    | none => rfl
    | some name =>
      cases hsb : (if op.binds b.1 then signature b.2 else none) with
      | none => rfl
      | some name' =>
        cases hfa : op.subgraphNamesToIndex.find a.1 with
        | none => rfl
        | some slot =>
          cases hfb : op.subgraphNamesToIndex.find b.1 with
          | none => rfl
          | some slot' =>
            have hne : slot ≠ slot' := by
              rintro rfl
              exact hab (slots_inj hop hfa hfb)
            exact set_comm _ _ hne

/-! ## The same result -/

theorem added_eq_nil_iff (a : String × TfAttrValue) : op.addedNames a = [] ↔ op.added a = [] := by
  rw [addedNames, map_eq_nil_iff, range_eq_nil, length_eq_zero_iff]

/-- Two runs over the same attributes, of which at most one adds names and none needs a name that is added. -/
theorem same_of_ran {op₁ op₂ : MappedOp M} (hop : op.Slots)
    (h₁ : Ran convertTensor namedAttrs op l op₁) (h₂ : Ran convertTensor namedAttrs op l' op₂) (hperm : l.Perm l')
    (hkeys : (l.map Prod.fst).Nodup) (hone : op.OneOrder l) : Same op₁ op₂ := by
  have hnames : l.flatMap op.addedNames = l'.flatMap op.addedNames :=
    flatMap_perm hperm hkeys fun a ha b hb hna hnb =>
      hone.2 a ha b hb (fun h => hna ((added_eq_nil_iff a).mpr h)) fun h => hnb ((added_eq_nil_iff b).mpr h)
  have hinstances : op₁.subgraphInstanceNames = op₂.subgraphInstanceNames := by
    rw [h₁.instances hone.1, h₂.instances fun a ha => hone.1 a (hperm.mem_iff.mpr ha), flatMap_perm hperm hkeys hone.2,
      bound_perm hop hperm hkeys]
  refine ⟨fun n => ?_, fun key => ?_, ?_⟩
  · rw [h₁.names n, h₂.names n, hnames]
  · rw [h₁.attrs key, h₂.attrs key, attrs_perm hperm hkeys]
  · have hrest := congrArg (fun x : MappedOp M => { x with subgraphInstanceNames := op₁.subgraphInstanceNames })
      (h₁.rest.trans h₂.rest.symm)
    have hright : ({ op₂.bare with subgraphInstanceNames := op₁.subgraphInstanceNames } : MappedOp M) = op₂.bare := by
      rw [hinstances]
      rfl
    exact hrest.trans hright

/-- The formats are set by the attributes. -/
theorem Same.setFormat {x y : MappedOp M} (h : Same x y) : Same x.setOpdescInputOutputFormat y.setOpdescInputOutputFormat := by
  have hhas : ∀ key, x.hasAttr key = y.hasAttr key := by
    intro key
    have hfind := h.attrs key
    unfold hasAttr
    rw [Bool.eq_iff_iff, ← Bool.not_eq_false, ← Bool.not_eq_false, ← find_eq_none, ← find_eq_none, hfind]
  have hformat : ∀ key format, x.formatAttr key format = y.formatAttr key format := by
    intro key format
    unfold formatAttr AttrUtils.get holder
    rw [hhas, Option.bind_some, Option.bind_some, h.attrs key]
  have hin : x.bare.inputFormats = y.bare.inputFormats := congrArg MappedOp.inputFormats h.rest
  have hout : x.bare.outputFormats = y.bare.outputFormats := congrArg MappedOp.outputFormats h.rest
  change x.inputFormats = y.inputFormats at hin
  change x.outputFormats = y.outputFormats at hout
  refine ⟨h.names, h.attrs, ?_⟩
  have hset : x.setOpdescInputOutputFormat.bare = { x.bare with
      inputFormats := y.setOpdescInputOutputFormat.inputFormats, outputFormats := y.setOpdescInputOutputFormat.outputFormats } := by
    unfold setOpdescInputOutputFormat bare
    dsimp only
    rw [hhas, hformat, hformat, hformat, hin, hout]
  rw [hset, h.rest]
  rfl

end

section

variable {convertTensor : TensorProto → Option (GeTensor M)} {namedAttrs : String → AttrHolder M → M.NamedAttrs}
  {op : MappedOp M} {name : String} {attr l : List (String × TfAttrValue)}

/-- What a run of mapping returns. -/
theorem autoMappingFn_accepted (hop : op.Slots) (hacc : AcceptsAll (op.setName name) [] l) :
    ∃ op', autoMappingFn convertTensor namedAttrs name l op = (true, op'.setOpdescInputOutputFormat) ∧
      Ran convertTensor namedAttrs (op.setName name) l op' := by
  have hslots : (op.setName name).Slots := hop
  have hnodup : ((op.setName name).subgraphNames ++ [].flatMap (op.setName name).addedNames).Nodup := by
    rw [flatMap_nil, append_nil]
    exact hop.keys
  obtain ⟨op', hrun, hran⟩ := @run_accepted M _ convertTensor namedAttrs hslots _ _ _ (ran_nil hslots) hnodup hacc
  refine ⟨op', ?_, hran⟩
  have hrun' : eachWhile (mapAttr convertTensor namedAttrs op.isSubgraphAttr) l (op.setName name) = (true, op') := hrun
  rw [autoMappingFn, hrun']

theorem autoMappingFn_refused (hop : op.Slots) (hnot : ¬ AcceptsAll (op.setName name) [] l) :
    (autoMappingFn convertTensor namedAttrs name l op).1 = false := by
  have hslots : (op.setName name).Slots := hop
  have hnodup : ((op.setName name).subgraphNames ++ [].flatMap (op.setName name).addedNames).Nodup := by
    rw [flatMap_nil, append_nil]
    exact hop.keys
  have hrun := @run_refused M _ convertTensor namedAttrs hslots _ _ _ (ran_nil hslots) hnodup hnot
  change (eachWhile (mapAttr convertTensor namedAttrs op.isSubgraphAttr) l (op.setName name)).1 = false at hrun
  rw [autoMappingFn]
  generalize eachWhile (mapAttr convertTensor namedAttrs op.isSubgraphAttr) l (op.setName name) = r at hrun
  obtain ⟨ok, op'⟩ := r
  obtain rfl : ok = false := hrun
  rfl

theorem accepts_iff (hop : op.Slots) (hperm : l.Perm attr) : AcceptsAll (op.setName name) [] l ↔
    ¬ ((∃ a ∈ attr, op.binds a.1 = true ∧ signature a.2 = none ∧ listSignatures a.2 = none) ∨
      ¬ (op.subgraphNames ++ attr.flatMap op.addedNames).Nodup) ∧ FoundAll (op.setName name) [] l := by
  have hnodup : ((op.setName name).subgraphNames ++ [].flatMap (op.setName name).addedNames).Nodup := by
    rw [flatMap_nil, append_nil]
    exact hop.keys
  refine (acceptsAll_iff hnodup).trans ?_
  rw [← and_assoc, nil_append, not_or, not_not]
  refine and_congr (and_congr ?_ ?_) Iff.rfl
  · push Not
    refine forall_congr' fun a => ?_
    rw [hperm.mem_iff]
    refine forall_congr' fun _ => forall_congr' fun _ => ?_
    tauto
  · exact ((hperm.flatMap_right _).append_left _).nodup_iff

/-- Of an attribute that is refused in every order no order makes a success. -/
theorem not_accepts_of_refused (hop : op.Slots) (hperm : l.Perm attr) (h : op.Refused attr) :
    ¬ AcceptsAll (op.setName name) [] l := by
  intro hacc
  obtain ⟨hno, hfound⟩ := (accepts_iff hop hperm).mp hacc
  rcases h with hkind | hdup | ⟨a, ha, hneeds, hmissing⟩
  · exact hno (Or.inl hkind)
  · exact hno (Or.inr hdup)
  · refine hmissing ?_
    have hmem := hfound.mem a (hperm.mem_iff.mpr ha) hneeds
    rw [nil_append] at hmem
    exact ((hperm.flatMap_right op.addedNames).append_left op.subgraphNames).mem_iff.mp hmem

/-- Where names that are needed are there, an order is as good as another. -/
theorem accepts_of_names (hop : op.Slots) (hperm : l.Perm attr)
    (hno : ¬ ((∃ a ∈ attr, op.binds a.1 = true ∧ signature a.2 = none ∧ listSignatures a.2 = none) ∨
      ¬ (op.subgraphNames ++ attr.flatMap op.addedNames).Nodup))
    (hnames : ∀ a ∈ attr, op.NeedsName a → a.1 ∈ op.subgraphNames) : AcceptsAll (op.setName name) [] l :=
  (accepts_iff hop hperm).mpr ⟨hno, foundAll_of_forall fun a ha hneeds => by
    rw [flatMap_nil, append_nil]
    exact hnames a (hperm.mem_iff.mp ha) hneeds⟩

/-- With a name that is needed and not there, the attributes that add names have to come first. -/
theorem differ_of_missing (hop : op.Slots) (hok : ¬ op.Refused attr) {a : String × TfAttrValue} (ha : a ∈ attr)
    (hneeds : op.NeedsName a) (hmissing : a.1 ∉ op.subgraphNames) :
    ∃ l l', l.Perm attr ∧ l'.Perm attr ∧ ¬ Agree (autoMappingFn convertTensor namedAttrs name l op)
      (autoMappingFn convertTensor namedAttrs name l' op) := by
  obtain ⟨hno, hfound⟩ : _ ∧ _ := not_or.mp fun h => hok (or_assoc.mp h)
  let adds : String × TfAttrValue → Bool := fun b => !(op.added b).isEmpty
  have hperm : (attr.filter adds ++ attr.filter fun b => !adds b).Perm attr := filter_append_perm adds attr
  have hquiet : ∀ b ∈ attr.filter fun b => !adds b, op.addedNames b = [] := by
    intro b hb
    exact addedNames_nil (by simpa [adds] using (mem_filter.mp hb).2)
  refine ⟨_, _, hperm, perm_append_comm.trans hperm, fun hagree => ?_⟩
  have hfirst : AcceptsAll (op.setName name) [] (attr.filter adds ++ attr.filter fun b => !adds b) := by
    refine (accepts_iff hop hperm).mpr ⟨hno, foundAll_append.mpr ⟨foundAll_of_forall fun b hb hb' => ?_,
      foundAll_of_forall fun b hb hb' => ?_⟩⟩
    · -- what adds names needs none
      have hsome : op.added b ≠ [] := by simpa [adds] using (mem_filter.mp hb).2
      exact absurd (added_of_signature hb'.2) hsome
    · have hmem := mem_append.mp (not_not.mp fun h => hfound ⟨b, (mem_filter.mp hb).1, hb', h⟩)
      refine mem_append.mpr (hmem.imp_right fun hadded => ?_)
      obtain ⟨c, hc, hin⟩ := mem_flatMap.mp hadded
      refine mem_flatMap.mpr ⟨c, mem_filter.mpr ⟨hc, ?_⟩, hin⟩
      by_contra hnone
      rw [addedNames_nil (by simpa [adds] using hnone)] at hin
      cases hin
  have hlast : ¬ AcceptsAll (op.setName name) [] ((attr.filter fun b => !adds b) ++ attr.filter adds) := by
    intro hacc
    have hall := (foundAll_append.mp ((accepts_iff hop (perm_append_comm.trans hperm)).mp hacc).2).1
    have hquiet' : a ∈ attr.filter fun b => !adds b :=
      mem_filter.mpr ⟨ha, by simp [adds, added_of_signature hneeds.2]⟩
    have hmem := hall.mem a hquiet' hneeds
    change a.1 ∈ op.subgraphNames ++ ([] ++ attr.filter fun b => !adds b).flatMap op.addedNames at hmem
    rw [nil_append, flatMap_eq_nil_iff.mpr hquiet, append_nil] at hmem
    exact hmissing hmem
  obtain ⟨op', hop', -⟩ := @autoMappingFn_accepted M convertTensor namedAttrs op name _ hop hfirst
  have hstatus := hagree.1
  rw [hop', @autoMappingFn_refused M convertTensor namedAttrs op name _ hop hlast] at hstatus
  cases hstatus

/-- Of two attributes that add names the first gets the first slots. -/
theorem differ_of_two (hop : op.Slots) (hok : ¬ op.Refused attr) (hnames : ∀ a ∈ attr, op.NeedsName a → a.1 ∈ op.subgraphNames)
    {a b : String × TfAttrValue} (ha : a ∈ attr) (hb : b ∈ attr) (hadds : op.added a ≠ []) (hadds' : op.added b ≠ [])
    (hab : a.1 ≠ b.1) :
    ∃ l l', l.Perm attr ∧ l'.Perm attr ∧ ¬ Agree (autoMappingFn convertTensor namedAttrs name l op)
      (autoMappingFn convertTensor namedAttrs name l' op) := by
  have hno := (not_or.mp fun h => hok (or_assoc.mp h)).1
  obtain ⟨s, t, hsplit⟩ := append_of_mem ha
  obtain ⟨s', t', hsplit'⟩ := append_of_mem hb
  have hperm : (a :: (s ++ t)).Perm attr := hsplit ▸ perm_middle.symm
  have hperm' : (b :: (s' ++ t')).Perm attr := hsplit' ▸ perm_middle.symm
  refine ⟨_, _, hperm, hperm', fun hagree => ?_⟩
  obtain ⟨op₁, hop₁, hran₁⟩ := @autoMappingFn_accepted M convertTensor namedAttrs op name _ hop (accepts_of_names hop hperm hno hnames)
  obtain ⟨op₂, hop₂, hran₂⟩ := @autoMappingFn_accepted M convertTensor namedAttrs op name _ hop (accepts_of_names hop hperm' hno hnames)
  rw [hop₁, hop₂] at hagree
  -- the first name of the one
  obtain ⟨rest, hfirst⟩ : ∃ rest, op.addedNames a = (a.1 ++ toString 0) :: rest := by
    obtain ⟨n, hn⟩ := Nat.exists_eq_succ_of_ne_zero fun h => hadds (length_eq_zero_iff.mp h)
    rw [addedNames_eq, hn]
    exact ⟨_, namesFrom_succ a.1 0 n⟩
  have hin : a.1 ++ toString 0 ∈ (s' ++ t').flatMap op.addedNames := by
    have hmem : a ∈ s' ++ t' := (mem_cons.mp (hperm'.mem_iff.mpr ha)).resolve_left fun h => hab (congrArg Prod.fst h)
    exact mem_flatMap.mpr ⟨a, hmem, hfirst ▸ mem_cons_self⟩
  have hout : a.1 ++ toString 0 ∉ op.addedNames b := by
    have hnodup := ((hperm'.flatMap_right op.addedNames).append_left op.subgraphNames).nodup_iff.mpr
      (not_not.mp (not_or.mp hno).2)
    rw [flatMap_cons] at hnodup
    exact fun h => (nodup_append.mp (nodup_append.mp hnodup).2.1).2.2 _ h _ hin rfl
  have hslot₁ := hran₁.names (a.1 ++ toString 0)
  have hslot₂ := hran₂.names (a.1 ++ toString 0)
  have hsame : op₁.subgraphNamesToIndex.find (a.1 ++ toString 0) = op₂.subgraphNamesToIndex.find (a.1 ++ toString 0) :=
    (hagree.2 rfl).names (a.1 ++ toString 0)
  have hnames₁ : (a :: (s ++ t)).flatMap (op.setName name).addedNames =
      (a.1 ++ toString 0) :: (rest ++ (s ++ t).flatMap op.addedNames) := by
    rw [flatMap_cons]
    exact congrArg (· ++ (s ++ t).flatMap op.addedNames) hfirst
  have hnames₂ : (b :: (s' ++ t')).flatMap (op.setName name).addedNames =
      op.addedNames b ++ (s' ++ t').flatMap op.addedNames := flatMap_cons
  rw [hnames₁, if_pos mem_cons_self, idxOf_cons_self] at hslot₁
  rw [hnames₂, if_pos (mem_append_right _ hin), idxOf_append_of_notMem hout, ← hsame, hslot₁] at hslot₂
  have hnum := Option.some.inj hslot₂
  have hzero : (op.addedNames b).length = 0 := by omega
  exact hadds' ((added_eq_nil_iff b).mp (length_eq_zero_iff.mp hzero))

end

end AttributeOrderAux

open AttributeOrderAux in
/-- Mapping does not depend on the order of the attributes if and only if some attribute is refused in every order, or none needs a
name that another adds and at most one adds names. -/
theorem attributeOrder_iff (convertTensor : TensorProto → Option (GeTensor M)) (namedAttrs : String → AttrHolder M → M.NamedAttrs)
    (op : MappedOp M) (hop : op.Slots) (name : String) (attr : List (String × TfAttrValue)) (hkeys : (attr.map Prod.fst).Nodup) :
    (∀ l l', l.Perm attr → l'.Perm attr → MappedOp.Agree (MappedOp.autoMappingFn convertTensor namedAttrs name l op)
      (MappedOp.autoMappingFn convertTensor namedAttrs name l' op)) ↔ op.Refused attr ∨ op.OneOrder attr := by
  constructor
  · intro hagree
    by_contra hnot
    obtain ⟨hok, hmore⟩ := not_or.mp hnot
    have hdiffer : ∃ l l', l.Perm attr ∧ l'.Perm attr ∧ ¬ MappedOp.Agree (MappedOp.autoMappingFn convertTensor namedAttrs name l op)
        (MappedOp.autoMappingFn convertTensor namedAttrs name l' op) := by
      by_cases hnames : ∀ a ∈ attr, op.NeedsName a → a.1 ∈ op.subgraphNames
      · by_contra hsame
        refine hmore ⟨hnames, fun a ha b hb hadds hadds' => ?_⟩
        by_contra hab
        exact hsame (differ_of_two hop hok hnames ha hb hadds hadds' hab)
      · push Not at hnames
        obtain ⟨a, ha, hneeds, hmissing⟩ := hnames
        exact differ_of_missing hop hok ha hneeds hmissing
    obtain ⟨l, l', hl, hl', hne⟩ := hdiffer
    exact hne (hagree l l' hl hl')
  · -- what is accepted in one order is in the other
    rintro h
    have hother : ∀ l l', l.Perm attr → l'.Perm attr → AcceptsAll (op.setName name) [] l → AcceptsAll (op.setName name) [] l' := by
      intro l l' hl hl' hacc
      have hone := h.resolve_left fun hrefused => not_accepts_of_refused hop hl hrefused hacc
      exact accepts_of_names hop hl' ((accepts_iff hop hl).mp hacc).1 hone.1
    intro l l' hl hl'
    by_cases hacc : AcceptsAll (op.setName name) [] l
    · have hone := h.resolve_left fun hrefused => not_accepts_of_refused hop hl hrefused hacc
      obtain ⟨op₁, hop₁, hran₁⟩ := @autoMappingFn_accepted M convertTensor namedAttrs op name l hop hacc
      obtain ⟨op₂, hop₂, hran₂⟩ := @autoMappingFn_accepted M convertTensor namedAttrs op name l' hop (hother l l' hl hl' hacc)
      have hslots : (op.setName name).Slots := hop
      have hone' : (op.setName name).OneOrder l :=
        ⟨fun a ha => hone.1 a (hl.mem_iff.mp ha), fun a ha b hb => hone.2 a (hl.mem_iff.mp ha) b (hl.mem_iff.mp hb)⟩
      have hsame := same_of_ran hslots hran₁ hran₂ (hl.trans hl'.symm) ((hl.map Prod.fst).nodup_iff.mpr hkeys) hone'
      rw [hop₁, hop₂]
      exact ⟨rfl, fun _ => Same.setFormat hsame⟩
    · have hfalse := @autoMappingFn_refused M convertTensor namedAttrs op name l hop hacc
      have hfalse' := @autoMappingFn_refused M convertTensor namedAttrs op name l' hop fun hacc' => hacc (hother l' l hl' hl hacc')
      exact ⟨hfalse.trans hfalse'.symm, fun htrue => absurd (hfalse.symm.trans htrue) Bool.false_ne_true⟩

namespace AttributeOrderWitness

/-- An attribute that is a list of one function. -/
def branch (key name : String) : String × TfAttrValue := (key, .list [] [] [] [] [] [] [] [(name, [])])

/-- An operator with two lists of subgraphs. -/
def cases : MappedOp .trivial := { subgraphIrNamesToType := [("branches", .dynamic), ("cleanup", .dynamic)] }

theorem slots_cases : cases.Slots := by
  unfold OpDesc.Slots
  decide

theorem attributeOrder_branches : (∀ l l', l.Perm [branch "branches" "two"] → l'.Perm [branch "branches" "two"] →
      MappedOp.Agree (MappedOp.autoMappingFn (fun _ => none) (fun _ _ => ()) "case" l cases)
        (MappedOp.autoMappingFn (fun _ => none) (fun _ _ => ()) "case" l' cases)) ↔
    cases.Refused [branch "branches" "two"] ∨ cases.OneOrder [branch "branches" "two"] :=
  attributeOrder_iff (fun _ => none) (fun _ _ => ()) cases slots_cases "case" [branch "branches" "two"] (by decide)

/-- The list that comes first has the first slot. -/
theorem attributeOrder_false : ¬ ∀ l l', l.Perm [branch "branches" "two", branch "cleanup" "last"] →
    l'.Perm [branch "branches" "two", branch "cleanup" "last"] →
      MappedOp.Agree (MappedOp.autoMappingFn (fun _ => none) (fun _ _ => ()) "case" l cases)
        (MappedOp.autoMappingFn (fun _ => none) (fun _ _ => ()) "case" l' cases) := by
  intro h
  have hagree := h [branch "branches" "two", branch "cleanup" "last"] [branch "cleanup" "last", branch "branches" "two"]
    (List.Perm.refl _) (List.Perm.swap ..)
  exact absurd ((hagree.2 (by decide)).names "branches0") (by decide)

end AttributeOrderWitness

end Metadef
