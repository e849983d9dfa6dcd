import Metadef.OriginNames
import Metadef.Theorems.AttrStore

/-!
# Origin names over trees of fusions

What is recorded on a fused node is told by its tree and by the names alone. A leaf that `GraphUtils` records is lost, as it has no
names yet, so the names of all leaves are kept when `GraphPassUtil` records them; a lost name comes back only from a fused node that
has it.
-/

namespace Metadef

open List Option AttrStoreAux Function

open NodeDescs

variable {M : AttrMessages}

namespace NodeDescs

/-- The name of the descriptor of a node. -/
def nameOf (s : NodeDescs M) (n : NodeId) : String := (s n).elim "" (·.name)

/-- The names recorded on a node, if there are any. -/
def namesOf (s : NodeDescs M) (n : NodeId) : Option (List String) :=
  (s n).bind fun d => if (getListStr d).1 then some (getListStr d).2 else none

/-- The nodes of a tree, each of which is there once. The leaves never had the attribute, and no fused node has it with a value of
another type. -/
structure Unfused (s : NodeDescs M) (leaves fusions : List NodeId) : Prop where
  once : (leaves ++ fusions).Nodup
  leaf : ∀ n ∈ leaves, ∃ d, s n = some d ∧ d.name ≠ "" ∧ d.attrs.attrMap.bind (·.find attrName) = none
  fused : ∀ n ∈ fusions, ∃ d m, s n = some d ∧ d.attrs.attrMap = some m ∧
    (((m.find attrName).getD .notSet).setValueCheckAndSetListType .s).isSome

end NodeDescs

/-! ## When the names are kept -/

def FusionTree.IsLeaf : FusionTree → Prop
  | leaf _ => True
  | fused _ _ _ => False

def FusionParts.AllLeaves : FusionParts → Prop
  | last part => part.IsLeaf
  | cons part parts => part.IsLeaf ∧ parts.AllLeaves

section

variable (name : NodeId → String)

mutual

/-- A fused node on which no names are recorded. -/
def FusionTree.Bare : FusionTree → Prop
  | .leaf _ => False
  | .fused .graphUtils _ parts => parts.AllLeaves
  | .fused .graphPassUtil _ parts => parts.AllBlank

/-- A fused node on which at most empty names are recorded. -/
def FusionTree.Blank : FusionTree → Prop
  | .leaf _ => False
  | .fused .graphUtils _ parts => parts.AllNameless
  | .fused .graphPassUtil _ parts => parts.AllBlank

def FusionParts.AllBlank : FusionParts → Prop
  | .last part => part.Blank
  | .cons part parts => part.Blank ∧ parts.AllBlank

/-- Each part is a leaf, or only empty names are recorded on it, or none and its own is empty. -/
def FusionParts.AllNameless : FusionParts → Prop
  | .last part => part.IsLeaf ∨ part.Blank ∧ (part.Bare → name part.root = "")
  | .cons part parts => (part.IsLeaf ∨ part.Blank ∧ (part.Bare → name part.root = "")) ∧ parts.AllNameless

end

mutual

/-- Every leaf is recorded by `GraphPassUtil`, or it is the one leaf of a fused node of its name, on which no names are recorded and
which `GraphUtils` records. -/
def FusionTree.KeepsNames : FusionTree → Prop
  | .leaf _ => True
  | .fused recorder _ parts => parts.KeepNames recorder

def FusionParts.KeepNames : Recorder → FusionParts → Prop
  | .graphPassUtil, .last part => part.KeepsNames
  | .graphPassUtil, .cons part parts => part.KeepsNames ∧ parts.KeepNames .graphPassUtil
  | .graphUtils, .last part =>
    ¬ part.IsLeaf ∧ (part.KeepsNames ∨ part.Bare name ∧ part.leaves.map name = [name part.root])
  | .graphUtils, .cons part parts =>
    (¬ part.IsLeaf ∧ (part.KeepsNames ∨ part.Bare name ∧ part.leaves.map name = [name part.root])) ∧
      parts.KeepNames .graphUtils

end

end

namespace OriginNamesAux

/-! ## The names of a tree -/

/-- What a recorder takes over from a node: its names, and its own one where it has none. -/
def given (own : String) : Recorder → Option (List String) → List String
  | .graphUtils, none => []
  | .graphUtils, some [] => [own]
  | .graphUtils, some (x :: l) => x :: l
  | .graphPassUtil, none => [own]
  | .graphPassUtil, some l => l.filter (· ≠ "")

section

variable (name : NodeId → String)

mutual

/-- The names recorded on the root of a tree. -/
def recorded : FusionTree → Option (List String)
  | .leaf _ => none
  | .fused recorder _ parts => some (taken recorder parts)

/-- The names a recorder takes over from the parts. -/
def taken (recorder : Recorder) : FusionParts → List String
  | .last part => given (name part.root) recorder (recorded part)
  | .cons part parts => given (name part.root) recorder (recorded part) ++ taken recorder parts

end

end

/-! ## When they are those of the leaves -/

section

variable {name : NodeId → String}

variable {own : String} {names : Option (List String)} {t : FusionTree}

theorem given_graphUtils_eq_nil : given own .graphUtils names = [] ↔ names = none := by
  cases names with
  | none => simp [given]
  | some l => cases l <;> simp [given]

/-- All that is taken over is empty when only empty names were recorded, and the own name is empty where there are none. -/
theorem given_graphUtils_empty {l : List String} :
    (∀ x ∈ given own .graphUtils (some l), x = "") ↔ (∀ x ∈ l, x = "") ∧ (l = [] → own = "") := by
  cases l <;> simp [given]

theorem recorded_eq_none (name : NodeId → String) : recorded name t = none ↔ t.IsLeaf := by
  cases t <;> simp [recorded, FusionTree.IsLeaf]

theorem ne_empty_of_mem_given (hleaves : ∀ n ∈ t.leaves, name n ≠ "") {x : String}
    (hx : x ∈ given (name t.root) .graphPassUtil (recorded name t)) : x ≠ "" := by
  cases t with
  | leaf n =>
    obtain rfl := mem_singleton.mp hx
    exact hleaves n mem_cons_self
  | fused r n parts => exact of_decide_eq_true (mem_filter.mp hx).2

/-- `GraphPassUtil` takes over no empty names. -/
theorem ne_empty_of_mem_taken : ∀ {p : FusionParts}, (∀ n ∈ p.leaves, name n ≠ "") → ∀ x ∈ taken name .graphPassUtil p, x ≠ ""
  | .last t, hleaves, x, hx => ne_empty_of_mem_given hleaves hx
  | .cons t p, hleaves, x, hx => by
    rcases mem_append.mp hx with hx | hx
    · exact ne_empty_of_mem_given (fun n hn => hleaves n (mem_append_left _ hn)) hx
    · exact ne_empty_of_mem_taken (fun n hn => hleaves n (mem_append_right _ hn)) x hx

theorem taken_graphUtils_eq_nil : ∀ {p : FusionParts}, taken name .graphUtils p = [] ↔ p.AllLeaves
  | .last t => given_graphUtils_eq_nil.trans (recorded_eq_none name)
  | .cons t p => by
    rw [taken, append_eq_nil_iff, given_graphUtils_eq_nil, recorded_eq_none name, taken_graphUtils_eq_nil]
    rfl

theorem taken_graphPassUtil_eq_nil {p : FusionParts} (hleaves : ∀ n ∈ p.leaves, name n ≠ "") :
    taken name .graphPassUtil p = [] ↔ ∀ x ∈ taken name .graphPassUtil p, x = "" := by
  constructor
  · intro hnil x hx
    rw [hnil] at hx
    cases hx
  · intro hempty
    exact eq_nil_iff_forall_not_mem.mpr fun x hx => ne_empty_of_mem_taken hleaves x hx (hempty x hx)

theorem given_graphPassUtil_eq_nil : given own .graphPassUtil names = [] ↔ ∃ l, names = some l ∧ ∀ x ∈ l, x = "" := by
  cases names <;> simp [given]

/-- What `GraphUtils` takes over from one part is empty. -/
theorem nameless_iff (hbare : t.Bare name ↔ recorded name t = some [])
    (hblank : t.Blank name ↔ ∃ l, recorded name t = some l ∧ ∀ x ∈ l, x = "") :
    (t.IsLeaf ∨ t.Blank name ∧ (t.Bare name → name t.root = "")) ↔
      ∀ x ∈ given (name t.root) .graphUtils (recorded name t), x = "" := by
  rw [← recorded_eq_none name, hblank, hbare]
  cases hnames : recorded name t with
  | none => simp [given]
  | some l =>
    rw [given_graphUtils_empty]
    simp

mutual

theorem bare_iff : ∀ {t : FusionTree}, (∀ n ∈ t.leaves, name n ≠ "") → (t.Bare name ↔ recorded name t = some [])
  | .leaf n, _ => by simp [FusionTree.Bare, recorded]
  | .fused .graphUtils n p, _ => by
    rw [FusionTree.Bare, recorded, some_inj, taken_graphUtils_eq_nil]
  | .fused .graphPassUtil n p, hleaves => by
    rw [FusionTree.Bare, recorded, some_inj]
    exact allBlank_iff hleaves

theorem blank_iff : ∀ {t : FusionTree}, (∀ n ∈ t.leaves, name n ≠ "") →
    (t.Blank name ↔ ∃ l, recorded name t = some l ∧ ∀ x ∈ l, x = "")
  | .leaf n, _ => by simp [FusionTree.Blank, recorded]
  | .fused .graphUtils n p, hleaves => by
    rw [FusionTree.Blank, allNameless_iff hleaves]
    simp [recorded]
  | .fused .graphPassUtil n p, hleaves => by
    rw [FusionTree.Blank, allBlank_iff hleaves, taken_graphPassUtil_eq_nil hleaves]
    simp [recorded]

theorem allBlank_iff : ∀ {p : FusionParts}, (∀ n ∈ p.leaves, name n ≠ "") → (p.AllBlank name ↔ taken name .graphPassUtil p = [])
  | .last t, hleaves => (blank_iff hleaves).trans given_graphPassUtil_eq_nil.symm
  | .cons t p, hleaves => by
    rw [FusionParts.AllBlank, taken, append_eq_nil_iff, given_graphPassUtil_eq_nil,
      blank_iff fun n hn => hleaves n (mem_append_left _ hn),
      allBlank_iff fun n hn => hleaves n (mem_append_right _ hn)]

theorem allNameless_iff : ∀ {p : FusionParts}, (∀ n ∈ p.leaves, name n ≠ "") →
    (p.AllNameless name ↔ ∀ x ∈ taken name .graphUtils p, x = "")
  | .last t, hleaves => nameless_iff (bare_iff hleaves) (blank_iff hleaves)
  | .cons t p, hleaves => by
    have ht : ∀ n ∈ t.leaves, name n ≠ "" := fun n hn => hleaves n (mem_append_left _ hn)
    have hp : ∀ n ∈ p.leaves, name n ≠ "" := fun n hn => hleaves n (mem_append_right _ hn)
    rw [FusionParts.AllNameless, taken, forall_mem_append, nameless_iff (bare_iff ht) (blank_iff ht), allNameless_iff hp]

end

/-! ### Lengths -/

mutual

theorem leaves_length_pos : ∀ {t : FusionTree}, 0 < t.leaves.length
  | .leaf _ => Nat.zero_lt_one
  | .fused _ _ _ => parts_leaves_length_pos

theorem parts_leaves_length_pos : ∀ {p : FusionParts}, 0 < p.leaves.length
  | .last _ => leaves_length_pos
  | .cons _ _ => by
    rw [FusionParts.leaves, length_append]
    exact Nat.add_pos_left leaves_length_pos _

end

variable {r : Recorder} {t : FusionTree} {l : List NodeId} {d : NamedOpDesc M}

theorem length_given_le {own : String} {names : Option (List String)} {k : Nat} (hk : 0 < k)
    (hnames : ∀ l, names = some l → l.length ≤ k) : (given own r names).length ≤ k := by
  cases names with
  | none =>
    cases r with
    | graphUtils => exact Nat.zero_le k
    | graphPassUtil => exact hk
  | some l =>
    cases r with
    | graphUtils =>
      cases l with
      | nil => exact hk
      | cons x l => exact hnames _ rfl
    | graphPassUtil => exact Nat.le_trans (length_filter_le ..) (hnames l rfl)

mutual

/-- No more names are recorded than there are leaves. -/
theorem length_recorded_le : ∀ {t : FusionTree} {l : List String}, recorded name t = some l → l.length ≤ t.leaves.length
  | .leaf _, _, h => by cases h
  | .fused _ _ _, _, h => by
    obtain rfl := Option.some.inj h
    exact length_taken_le

theorem length_taken_le : ∀ {r : Recorder} {p : FusionParts}, (taken name r p).length ≤ p.leaves.length
  | _, .last _ => length_given_le leaves_length_pos fun _ => length_recorded_le
  | _, .cons _ _ => by
    rw [taken, FusionParts.leaves, length_append, length_append]
    exact Nat.add_le_add (length_given_le leaves_length_pos fun _ => length_recorded_le) length_taken_le

end

/-! ### Equality -/

/-- Two lists are put together to names that are not too short only from these names. -/
theorem append_eq_append_iff {a b a' b' : List String} (ha : a.length ≤ a'.length) (hb : b.length ≤ b'.length) :
    a ++ b = a' ++ b' ↔ a = a' ∧ b = b' := by
  constructor
  · intro h
    have hlen := congrArg List.length h
    rw [length_append, length_append] at hlen
    exact List.append_inj h (by omega)
  · rintro ⟨rfl, rfl⟩
    rfl

/-- Names that are not empty are left by a filter of empty ones only from themselves, when there were not more. -/
theorem filter_eq_iff {l names : List String} (hlen : l.length ≤ names.length) (hnames : ∀ x ∈ names, x ≠ "") :
    l.filter (· ≠ "") = names ↔ l = names := by
  constructor
  · intro h
    have hle : l.length ≤ (l.filter (· ≠ "")).length := by
      rw [h]
      exact hlen
    have heq := length_filter_eq_length_iff.mp (Nat.le_antisymm (length_filter_le ..) hle)
    rw [← h]
    exact (filter_eq_self.mpr heq).symm
  · rintro rfl
    exact filter_eq_self.mpr fun x hx => decide_eq_true (hnames x hx)

theorem given_graphPassUtil_eq (hleaves : ∀ n ∈ t.leaves, name n ≠ "")
    (hkeeps : t.KeepsNames name ↔ t.IsLeaf ∨ recorded name t = some (t.leaves.map name)) :
    given (name t.root) .graphPassUtil (recorded name t) = t.leaves.map name ↔ t.KeepsNames name := by
  cases t with
  | leaf n => exact iff_of_true rfl trivial
  | fused r n p =>
    have hnames : ∀ x ∈ p.leaves.map name, x ≠ "" := by
      intro x hx
      obtain ⟨n, hn, rfl⟩ := List.mem_map.mp hx
      exact hleaves n hn
    have hlen : (taken name r p).length ≤ (p.leaves.map name).length := by
      rw [length_map]
      exact length_taken_le
    rw [hkeeps, FusionTree.IsLeaf, false_or, recorded, some_inj]
    exact filter_eq_iff hlen hnames

theorem given_graphUtils_eq (hleaves : ∀ n ∈ t.leaves, name n ≠ "")
    (hkeeps : t.KeepsNames name ↔ t.IsLeaf ∨ recorded name t = some (t.leaves.map name)) :
    given (name t.root) .graphUtils (recorded name t) = t.leaves.map name ↔
      ¬ t.IsLeaf ∧ (t.KeepsNames name ∨ t.Bare name ∧ t.leaves.map name = [name t.root]) := by
  have hne : t.leaves.map name ≠ [] := by
    intro h
    have hpos := leaves_length_pos (t := t)
    rw [← length_map (f := name), h] at hpos
    exact Nat.lt_irrefl 0 hpos
  rw [hkeeps, bare_iff hleaves, ← recorded_eq_none name]
  cases recorded name t with
  | none => exact iff_of_false hne.symm fun h => h.1 rfl
  | some l =>
    cases l with
    | nil => simp [given, hne.symm, eq_comm]
    | cons x l => simp [given]

theorem given_map_le (t : FusionTree) : (given (name t.root) r (recorded name t)).length ≤ (t.leaves.map name).length := by
  rw [length_map]
  exact length_given_le leaves_length_pos fun _ => length_recorded_le

theorem taken_map_le (p : FusionParts) : (taken name r p).length ≤ (p.leaves.map name).length := by
  rw [length_map]
  exact length_taken_le

mutual

theorem keepsNames_iff : ∀ {t : FusionTree}, (∀ n ∈ t.leaves, name n ≠ "") →
    (t.KeepsNames name ↔ t.IsLeaf ∨ recorded name t = some (t.leaves.map name))
  | .leaf _, _ => iff_of_true trivial (.inl trivial)
  | .fused r n p, hleaves => by
    rw [FusionTree.KeepsNames, FusionTree.IsLeaf, false_or, recorded, some_inj]
    exact (taken_eq_iff hleaves).symm

/-- The names of the leaves are taken over part by part, as no part gives too many. -/
theorem taken_eq_iff : ∀ {r : Recorder} {p : FusionParts}, (∀ n ∈ p.leaves, name n ≠ "") →
    (taken name r p = p.leaves.map name ↔ p.KeepNames name r)
  | .graphPassUtil, .last _, hleaves => given_graphPassUtil_eq hleaves (keepsNames_iff hleaves)
  | .graphUtils, .last _, hleaves => given_graphUtils_eq hleaves (keepsNames_iff hleaves)
  | .graphPassUtil, .cons t p, hleaves => by
    have ht : ∀ n ∈ t.leaves, name n ≠ "" := fun n hn => hleaves n (mem_append_left _ hn)
    have hp : ∀ n ∈ p.leaves, name n ≠ "" := fun n hn => hleaves n (mem_append_right _ hn)
    rw [taken, FusionParts.leaves, map_append, append_eq_append_iff (given_map_le t) (taken_map_le p),
      given_graphPassUtil_eq ht (keepsNames_iff ht), taken_eq_iff hp]
    rfl
  | .graphUtils, .cons t p, hleaves => by
    have ht : ∀ n ∈ t.leaves, name n ≠ "" := fun n hn => hleaves n (mem_append_left _ hn)
    have hp : ∀ n ∈ p.leaves, name n ≠ "" := fun n hn => hleaves n (mem_append_right _ hn)
    rw [taken, FusionParts.leaves, map_append, append_eq_append_iff (given_map_le t) (taken_map_le p),
      given_graphUtils_eq ht (keepsNames_iff ht), taken_eq_iff hp]
    rfl

end

end

/-! ## One record -/

/-- Descriptors may change for some nodes, but not their names. -/
structure Changed (nodes : List NodeId) (s s' : NodeDescs M) : Prop where
  frame : ∀ n, n ∉ nodes → s' n = s n
  names : ∀ n, (s' n).map (·.name) = (s n).map (·.name)

variable {s s' s'' : NodeDescs M}

theorem Changed.trans {l' : List NodeId} (h : Changed l s s') (h' : Changed l' s' s'') : Changed (l ++ l') s s'' where
  frame n hn := by
    rw [mem_append, not_or] at hn
    rw [h'.frame n hn.2, h.frame n hn.1]
  names n := (h'.names n).trans (h.names n)

theorem Changed.nameOf_eq (h : Changed l s s') : nameOf s' = nameOf s := by
  funext n
  have hname := h.names n
  unfold nameOf
  cases hs : s n with
  | none =>
    rw [hs] at hname
    rw [map_eq_none_iff.mp hname]
  | some d =>
    rw [hs] at hname
    obtain ⟨d', hd', heq⟩ := map_eq_some_iff.mp hname
    rw [hd']
    exact heq

theorem Changed.isSome_eq (h : Changed l s s') (n : NodeId) : (s' n).isSome = (s n).isSome := by
  have hname := congrArg Option.isSome (h.names n)
  rwa [isSome_map, isSome_map] at hname

theorem changed_setListStr (node : NodeId) (l : List String) : Changed [node] s (setListStr node l s) where
  frame n hn := update_of_ne (fun h => hn (mem_singleton.mpr h)) ..
  names n := by
    by_cases h : n = node
    · subst h
      rw [setListStr, update_self, Option.map_map]
      rfl
    · rw [setListStr, update_of_ne h]

/-- Names that are set are read again. -/
theorem namesOf_setListStr {node : NodeId} {m : OrderedMap String (AttrDef M)} (hd : s node = some d)
    (hm : d.attrs.attrMap = some m) (hset : (((m.find attrName).getD .notSet).setValueCheckAndSetListType .s).isSome)
    (l : List String) : namesOf (setListStr node l s) node = some l := by
  obtain ⟨lv, hlv⟩ := isSome_iff_exists.mp hset
  have hfind : d.attrs.find attrName = m.find attrName := by rw [AttrHolder.find, hm]; rfl
  have hencode : l.mapM (GeAttrValueImp.encode (M := M) .str) = some l :=
    (mapM_pure (m := Option) (f := fun x : String => x)).trans (congrArg some (List.map_id l))
  have hvalue : GeAttrValueImp.setValue (.list .str) l ((d.attrs.find attrName).getD .notSet) =
      (true, .list { lv with items := Function.update lv.items .s l }) := by
    rw [hfind]
    exact setList_some hlv hencode
  obtain ⟨-, hnow⟩ := set_find hm attrName (t := .list .str) l
  have hnow := hnow attrName
  rw [if_pos rfl, hvalue] at hnow
  have hget : getListStr { d with attrs := (AttrUtils.set d.attrs attrName (.list .str) l).2 } = (true, l) := by
    unfold getListStr AttrUtils.get
    rw [show Option.bind _ _ = _ from hnow]
    have hitems := getValueCheckListType_list (l := { lv with items := Function.update lv.items .s l })
      (checkList_eq_some hlv).1
    have hself : Function.update lv.items .s l .s = l := update_self ..
    exact getList_some (e := .str) (hitems.trans (congrArg some hself)) hencode (.inl rfl)
  rw [namesOf, setListStr, update_self, hd]
  show (if (getListStr _).1 then some (getListStr _).2 else none) = _
  rw [hget]
  rfl

/-- What the loops take over from nodes. -/
def takenFrom (s : NodeDescs M) (r : Recorder) (nodes : List NodeId) : List String :=
  nodes.flatMap fun n => given (nameOf s n) r (namesOf s n)

/-- The names of a node as the loops read them. -/
theorem namesOf_of_get {n : NodeId} {ok : Bool} {l : List String} (hd : s n = some d)
    (hget : getListStr d = (ok, l)) : nameOf s n = d.name ∧ namesOf s n = if ok then some l else none := by
  rw [nameOf, namesOf, hd]
  refine ⟨rfl, ?_⟩
  show (if (getListStr d).1 then some (getListStr d).2 else none) = _
  rw [hget]

theorem graphUtils_originalNames : ∀ {nodes : List NodeId}, (∀ n ∈ nodes, (s n).isSome) → ∀ names,
    GraphUtils.originalNames s (nodes.map some) names = some (names ++ takenFrom s .graphUtils nodes)
  | [], _, names => by simp [GraphUtils.originalNames, takenFrom]
  | n :: nodes, hsome, names => by
    obtain ⟨d, hd⟩ := isSome_iff_exists.mp (hsome n mem_cons_self)
    have ih := graphUtils_originalNames fun m hm => hsome m (mem_cons_of_mem _ hm)
    rcases hget : getListStr d with ⟨ok, l⟩
    obtain ⟨hname, hnames⟩ := namesOf_of_get hd hget
    have hcons : takenFrom s .graphUtils (n :: nodes) =
        given d.name .graphUtils (if ok then some l else none) ++ takenFrom s .graphUtils nodes := by
      rw [takenFrom, flatMap_cons, hname, hnames]
      rfl
    rw [hcons, map_cons, GraphUtils.originalNames, hd]
    dsimp only
    rw [hget]
    cases ok with
    | false => exact ih names
    | true =>
      cases l with
      | nil => exact (ih _).trans (congrArg some (append_assoc ..))
      | cons x l => exact (ih _).trans (congrArg some (append_assoc ..))

theorem graphPassUtil_originalNames : ∀ {nodes : List NodeId}, (∀ n ∈ nodes, (s n).isSome) → ∀ names,
    GraphPassUtil.originalNames s (nodes.map some) names = some (names ++ takenFrom s .graphPassUtil nodes)
  | [], _, names => by simp [GraphPassUtil.originalNames, takenFrom]
  | n :: nodes, hsome, names => by
    obtain ⟨d, hd⟩ := isSome_iff_exists.mp (hsome n mem_cons_self)
    have ih := graphPassUtil_originalNames fun m hm => hsome m (mem_cons_of_mem _ hm)
    rcases hget : getListStr d with ⟨ok, l⟩
    obtain ⟨hname, hnames⟩ := namesOf_of_get hd hget
    have hcons : takenFrom s .graphPassUtil (n :: nodes) =
        given d.name .graphPassUtil (if ok then some l else none) ++ takenFrom s .graphPassUtil nodes := by
      rw [takenFrom, flatMap_cons, hname, hnames]
      rfl
    rw [hcons, map_cons, GraphPassUtil.originalNames, bind_some, hd]
    dsimp only
    rw [hget]
    cases ok with
    | false => exact (ih _).trans (congrArg some (append_assoc ..))
    | true => exact (ih _).trans (congrArg some (append_assoc ..))

/-- Nodes with descriptors are recorded with what is taken over from them. -/
theorem record_eq {nodes : List NodeId} (hsome : ∀ n ∈ nodes, (s n).isSome) (r : Recorder) (node : NodeId) :
    r.record (nodes.map some) (some node) s = some ((), setListStr node (takenFrom s r nodes) s) := by
  cases r with
  | graphUtils =>
    rw [Recorder.record, GraphUtils.recordOriginalNamesOf]
    simp only [Cmd.get_bind_apply, graphUtils_originalNames hsome, nil_append]
    rfl
  | graphPassUtil =>
    rw [Recorder.record, GraphPassUtil.recordOriginalNames]
    simp only [Cmd.get_bind_apply, graphPassUtil_originalNames hsome, nil_append]
    rfl

/-! ## The run -/

section

variable {leaves fusions : List NodeId}

theorem unfused_of_changed {l : List NodeId} (h : Unfused s leaves fusions) (hc : Changed l s s')
    (hl : ∀ n ∈ leaves ++ fusions, n ∉ l) : Unfused s' leaves fusions where
  once := h.once
  leaf n hn := by
    rw [hc.frame n (hl n (mem_append_left _ hn))]
    exact h.leaf n hn
  fused n hn := by
    rw [hc.frame n (hl n (mem_append_right _ hn))]
    exact h.fused n hn

theorem ne_empty_of_unfused (h : Unfused s leaves fusions) : ∀ n ∈ leaves, nameOf s n ≠ "" := by
  intro n hn
  obtain ⟨d, hd, hname, -⟩ := h.leaf n hn
  rw [nameOf, hd]
  exact hname

/-- A leaf has no names. -/
theorem namesOf_leaf (h : Unfused s leaves fusions) {n : NodeId} (hn : n ∈ leaves) : namesOf s n = none := by
  obtain ⟨d, hd, -, hnone⟩ := h.leaf n hn
  have hget : getListStr d = (false, []) := by
    unfold getListStr AttrUtils.get
    rw [hnone]
    rfl
  exact (namesOf_of_get hd hget).2

theorem parts_of_unfused {leaves' fusions' : List NodeId} (h : Unfused s (leaves ++ leaves') (fusions ++ fusions')) :
    Unfused s leaves fusions ∧ Unfused s leaves' fusions' ∧
      ∀ n ∈ leaves ++ fusions, n ∉ leaves' ++ fusions' := by
  have hperm : ((leaves ++ leaves') ++ (fusions ++ fusions')).Perm ((leaves ++ fusions) ++ (leaves' ++ fusions')) := by
    simp only [append_assoc]
    exact (perm_append_comm_assoc leaves' fusions fusions').append_left leaves
  obtain ⟨hfst, hsnd, hne⟩ := nodup_append.mp (hperm.nodup_iff.mp h.once)
  refine ⟨⟨hfst, fun n hn => h.leaf n (mem_append_left _ hn), fun n hn => h.fused n (mem_append_left _ hn)⟩,
    ⟨hsnd, fun n hn => h.leaf n (mem_append_right _ hn), fun n hn => h.fused n (mem_append_right _ hn)⟩, ?_⟩
  exact fun n hn hn' => hne n hn n hn' rfl

theorem root_mem : ∀ t : FusionTree, t.root ∈ t.leaves ++ t.fusions
  | .leaf _ => mem_singleton.mpr rfl
  | .fused _ _ _ => mem_append_right _ (mem_append_right _ (mem_singleton.mpr rfl))

theorem roots_mem : ∀ (p : FusionParts), ∀ n ∈ p.roots, n ∈ p.leaves ++ p.fusions
  | .last t, n, hn => by
    obtain rfl := mem_singleton.mp hn
    exact root_mem t
  | .cons t p, n, hn => by
    have hsub : ∀ m, m ∈ t.leaves ++ t.fusions ∨ m ∈ p.leaves ++ p.fusions →
        m ∈ (FusionParts.cons t p).leaves ++ (FusionParts.cons t p).fusions := by
      intro m hm
      simp only [FusionParts.leaves, FusionParts.fusions, mem_append] at hm ⊢
      tauto
    rcases mem_cons.mp hn with rfl | hn
    · exact hsub _ (.inl (root_mem t))
    · exact hsub _ (.inr (roots_mem p n hn))

theorem isSome_of_unfused (h : Unfused s leaves fusions) {n : NodeId} (hn : n ∈ leaves ++ fusions) : (s n).isSome := by
  rcases mem_append.mp hn with hn | hn
  · obtain ⟨d, hd, -⟩ := h.leaf n hn
    rw [hd]
    rfl
  · obtain ⟨d, m, hd, -⟩ := h.fused n hn
    rw [hd]
    rfl

end

mutual

/-- A tree is recorded with the names told by it. -/
theorem tree_run : ∀ {t : FusionTree} {s : NodeDescs M}, Unfused s t.leaves t.fusions →
    ∃ s', t.record s = some ((), s') ∧ Changed t.fusions s s' ∧ namesOf s' t.root = recorded (nameOf s) t
  | .leaf n, s, h => ⟨s, rfl, ⟨fun _ _ => rfl, fun _ => rfl⟩, namesOf_leaf h mem_cons_self⟩
  | .fused r n p, s, h => by
    have h' : Unfused s (p.leaves ++ []) (p.fusions ++ [n]) := by
      rw [append_nil]
      exact h
    obtain ⟨hp, hroot, hother⟩ := parts_of_unfused h'
    obtain ⟨s₁, hrun, hc, htaken⟩ := parts_run hp
    have hsome : ∀ m ∈ p.roots, (s₁ m).isSome := by
      intro m hm
      rw [hc.isSome_eq]
      exact isSome_of_unfused hp (roots_mem p m hm)
    have hn : n ∉ p.fusions := fun hn => hother n (mem_append_right _ hn) (mem_singleton.mpr rfl)
    obtain ⟨d, m, hd, hm, hset⟩ := hroot.fused n (mem_singleton.mpr rfl)
    rw [← hc.frame n hn] at hd
    refine ⟨setListStr n (takenFrom s₁ r p.roots) s₁, ?_, hc.trans (changed_setListStr n _), ?_⟩
    · rw [FusionTree.record, Cmd.bind_of_eq hrun, record_eq hsome]
    · rw [FusionTree.root, namesOf_setListStr hd hm hset, htaken]
      rfl

theorem parts_run : ∀ {p : FusionParts} {s : NodeDescs M}, Unfused s p.leaves p.fusions →
    ∃ s', p.record s = some ((), s') ∧ Changed p.fusions s s' ∧ ∀ r, takenFrom s' r p.roots = taken (nameOf s) r p
  | .last t, s, h => by
    obtain ⟨s', hrun, hc, hnames⟩ := tree_run h
    refine ⟨s', hrun, hc, fun r => ?_⟩
    rw [takenFrom, FusionParts.roots, flatMap_singleton, hnames, hc.nameOf_eq, taken]
  | .cons t p, s, h => by
    obtain ⟨ht, hp, hother⟩ := parts_of_unfused h
    obtain ⟨s₁, hrun₁, hc₁, hnames⟩ := tree_run ht
    have hp₁ : Unfused s₁ p.leaves p.fusions :=
      unfused_of_changed hp hc₁ fun n hn hn' => hother n (mem_append_right _ hn') hn
    obtain ⟨s₂, hrun₂, hc₂, htaken⟩ := parts_run hp₁
    -- the fusions of the other parts leave the root
    have hroot : s₂ t.root = s₁ t.root :=
      hc₂.frame _ fun hn => hother _ (root_mem t) (mem_append_right _ hn)
    have hnow : namesOf s₂ t.root = recorded (nameOf s) t := by
      rw [namesOf, hroot]
      exact hnames
    refine ⟨s₂, ?_, hc₁.trans hc₂, fun r => ?_⟩
    · rw [FusionParts.record, Cmd.bind_of_eq hrun₁, hrun₂]
    · have hrest : takenFrom s₂ r p.roots = taken (nameOf s) r p := by rw [htaken, hc₁.nameOf_eq]
      rw [taken, FusionParts.roots, takenFrom, flatMap_cons, hnow, ← hrest, takenFrom, hc₂.nameOf_eq, hc₁.nameOf_eq]

end

end OriginNamesAux

open OriginNamesAux

/-- A run of fusions leaves the names of all leaves on its last node when each leaf is recorded by `GraphPassUtil`, or is the one leaf
of a node of its name that has no names and that `GraphUtils` records. -/
theorem originNames_iff (recorder : Recorder) (node : NodeId) (parts : FusionParts) {s : NodeDescs M}
    (h : Unfused s parts.leaves (parts.fusions ++ [node])) :
    (∃ s', (FusionTree.fused recorder node parts).record s = some ((), s') ∧
        namesOf s' node = some (parts.leaves.map (nameOf s))) ↔
      (FusionTree.fused recorder node parts).KeepsNames (nameOf s) := by
  obtain ⟨s', hrun, -, hnames⟩ := tree_run (t := .fused recorder node parts) h
  have hkeeps := taken_eq_iff (r := recorder) (ne_empty_of_unfused h)
  rw [FusionTree.KeepsNames, ← hkeeps]
  constructor
  · rintro ⟨s'', hrun', hleaves⟩
    rw [hrun] at hrun'
    obtain rfl : s' = s'' := congrArg Prod.snd (Option.some.inj hrun')
    exact Option.some.inj (hnames.symm.trans hleaves)
  · intro htaken
    exact ⟨s', hrun, hnames.trans (congrArg some htaken)⟩

namespace OriginNamesWitness

/-- Three nodes to be fused, and three nodes they are fused to. -/
def descs : NodeDescs AttrMessages.trivial := fun n => some { name := ["all", "left", "right", "a", "b", "c"].getD n "" }

/-- Two nodes fused by `GraphPassUtil`, and these by `GraphUtils`. -/
def parts : FusionParts :=
  .cons (.fused .graphPassUtil 1 (.cons (.leaf 3) (.last (.leaf 4)))) (.last (.fused .graphPassUtil 2 (.last (.leaf 5))))

theorem unfused_descs (leaves fusions : List NodeId) (honce : (leaves ++ fusions).Nodup)
    (hname : ∀ n ∈ leaves, nameOf descs n ≠ "") : Unfused descs leaves fusions where
  once := honce
  leaf n hn := ⟨_, rfl, hname n hn, rfl⟩
  fused _ _ := ⟨_, [], rfl, rfl, rfl⟩

theorem originNames_parts : ∃ s', (FusionTree.fused .graphUtils 0 parts).record descs = some ((), s') ∧
    namesOf s' 0 = some (parts.leaves.map (nameOf descs)) :=
  (originNames_iff .graphUtils 0 parts (unfused_descs _ _ (by decide) (by decide))).mpr
    ⟨⟨not_false, .inl ⟨trivial, trivial⟩⟩, ⟨not_false, .inl trivial⟩⟩

/-- The name of a leaf that `GraphUtils` records is lost. -/
theorem originNames_false : ¬ ∀ (recorder : Recorder) (node : NodeId) (parts : FusionParts) (s : NodeDescs AttrMessages.trivial),
    Unfused s parts.leaves (parts.fusions ++ [node]) →
      ∃ s', (FusionTree.fused recorder node parts).record s = some ((), s') ∧
        namesOf s' node = some (parts.leaves.map (nameOf s)) := by
  intro h
  obtain ⟨s', hrun, hnames⟩ := h .graphUtils 0 (.last (.leaf 3)) descs (unfused_descs _ _ (by decide) (by decide))
  have hlost : (FusionTree.fused .graphUtils 0 (.last (.leaf 3))).record descs = some ((), setListStr 0 [] descs) := rfl
  rw [hlost] at hrun
  obtain rfl : setListStr 0 [] descs = s' := congrArg Prod.snd (Option.some.inj hrun)
  exact absurd hnames (by decide)

end OriginNamesWitness

end Metadef
