import Metadef.Lib.Adjacency
import Metadef.Lib.Preorder
import Metadef.Lemmas.ScopeSteps

/-!
# Every operator is filed under its directory

The tree after any operators were added. It is compared with what it is for: an operator belongs in the directory spelled by the
components of its name before the last.
-/

namespace Metadef

open List

open Relation

/-- The directory an operator belongs in. -/
def NodeDef.dir (n : NodeDef) : List String := (components n.name).dropLast

namespace ScopeTree

section Tree

variable (t : ScopeTree)

/-- A scope is a sub scope of another. -/
def Sub (s d : ScopeId) : Prop := ∃ name, (name, d) ∈ (t.scope s).subScopes

/-- A scope is another or lies below it. -/
def Below (s d : ScopeId) : Prop := ReflTransGen t.Sub s d

/-- A scope is one of the tree's. -/
def InTree (s : ScopeId) : Prop := t.Below t.root s

/-- The fathers of a scope, up to the root, spell a directory. -/
inductive Spells : ScopeId → List String → Prop where
  | root (h : (t.scope t.root).fatherScope = none) : Spells t.root []
  | sub {s f : ScopeId} {dir : List String} {item : String} (hfather : (t.scope s).fatherScope = some f)
      (hname : (t.scope s).name = dirName (dir ++ [item])) (habove : Spells f dir) : Spells s (dir ++ [item])

open Classical in
/-- How many operators of a type the scopes from one down hold. -/
noncomputable def heldBelow (s : ScopeId) (opType : String) : Nat :=
  ((t.scopes.filter fun d => t.Below s d).map fun d => (t.scope d).nodes.countP fun n => n.opType = opType).sum

/-- The tree has filed these operators. -/
structure FilesEach (order : HashOrder) (nodeDefs : List (Option NodeDef)) : Prop where
  held : ∀ n, some n ∈ nodeDefs → components n.name ≠ [] → ∃! s, t.InTree s ∧ n ∈ (t.scope s).nodes
  added : ∀ s, t.InTree s → ∀ n ∈ (t.scope s).nodes, some n ∈ nodeDefs ∧ components n.name ≠ []
  spelled : ∀ s, t.InTree s → ∀ n ∈ (t.scope s).nodes, t.Spells s n.dir
  distinct : ∀ s, t.InTree s → ((t.scope s).subScopes.map fun e => (t.scope e.2).name).Nodup
  listed : t.scopes.Nodup ∧ ∀ s, s ∈ t.scopes ↔ t.InTree s
  counted : ∀ s, t.InTree s → ∀ ty,
    (t.scope s).getOpTypeNum ty = if t.heldBelow s ty = 0 then -1 else (t.heldBelow s ty : Int)
  subScopes : ∀ s, t.InTree s → ∀ fuel, t.scopes.length ≤ fuel → ∃ l t', t.getAllSubScopes order fuel s = some (l, t') ∧
    l.Nodup ∧ ∀ d, d ∈ l ↔ TransGen t.Sub s d

end Tree

end ScopeTree

namespace ScopeTreeAux

open ScopePathsAux ScopeStepsAux

variable {t : ScopeTree} {path : ScopeId → List String} {l : List NodeDef} {s d : ScopeId}

/-! ## A run -/

/-- The operators of a list are those the tree holds, each where it belongs. -/
structure Holds (t : ScopeTree) (path : ScopeId → List String) (l : List NodeDef) : Prop where
  laid : LaidOut t path
  found : ∀ n ∈ l, ∃ s < t.next, path s = n.dir
  nodes : ∀ s < t.next, (t.scope s).nodes = l.filter fun n => n.dir = path s
  counts : ∀ s < t.next, ∀ ty, (t.scope s).opCount ty = l.countP fun n => n.opType = ty ∧ path s <+: n.dir

theorem init_scope (hs : s ≠ 0) : ScopeTree.init.scope s = {} := Function.update_of_ne hs _ _

theorem holds_init : Holds ScopeTree.init (fun _ => []) [] where
  laid := {
    root := rfl
    root_lt := Nat.zero_lt_one
    root_path := rfl
    fatherless := rfl
    scopes := rfl
    filed := fun s hs h0 => absurd (Nat.lt_one_iff.mp hs) h0
    apart := fun s hs s' hs' _ => (Nat.lt_one_iff.mp hs).trans (Nat.lt_one_iff.mp hs').symm
    subs := by
      intro f hf name s
      obtain rfl := Nat.lt_one_iff.mp hf
      refine ⟨fun hmem => absurd hmem not_mem_nil, fun ⟨hs, hfather, _⟩ => ?_⟩
      obtain rfl := Nat.lt_one_iff.mp hs
      cases hfather
    keys := by
      intro f hf
      obtain rfl := Nat.lt_one_iff.mp hf
      exact nodup_nil
    blank := fun s hs => init_scope (Nat.ne_of_gt hs)
    uncached := by
      intro s
      by_cases hs : s = 0
      · rw [hs]
        rfl
      · rw [init_scope hs]
    counting := by
      intro s
      by_cases hs : s = 0
      · rw [hs]
        exact nofun
      · rw [init_scope hs]
        exact nofun }
  found := nofun
  nodes := by
    intro s hs
    obtain rfl := Nat.lt_one_iff.mp hs
    rfl
  counts := by
    intro s hs ty
    obtain rfl := Nat.lt_one_iff.mp hs
    rfl

/-- The directories above one are there when it is. -/
theorem exists_above (h : LaidOut t path) : ∀ s < t.next, ∀ dir, dir <+: path s → ∃ r < t.next, path r = dir := by
  intro s
  induction s using Nat.strongRecOn with
  | ind s ih =>
    intro hs dir hdir
    by_cases h0 : s = 0
    · rw [h0, h.root_path, prefix_nil] at hdir
      exact ⟨0, h.root_lt, hdir ▸ h.root_path⟩
    · obtain ⟨f, hf, item, -, hpath, -⟩ := h.filed s hs h0
      rw [hpath, prefix_concat_iff] at hdir
      rcases hdir with rfl | hdir
      · exact ⟨s, hs, hpath⟩
      · exact ih f hf (Nat.lt_trans hf hs) dir hdir

/-- Filing an operator that has a component adds it to those held. -/
theorem Holds.add (h : Holds t path l) {n : NodeDef} (hn : components n.name ≠ []) :
    ∃ path', Holds (t.addNodeToScope (some n)) path' (l ++ [n]) := by
  obtain ⟨last, hsplit⟩ := splitNodeName_eq hn
  have hroot : path t.root = [] := by rw [h.laid.root, h.laid.root_path]
  have hlegal : ∀ item ∈ n.dir, '/' ∉ item.toList := fun item hi => not_mem_component (dropLast_subset _ hi)
  have hlt : t.root < t.next := by rw [h.laid.root]; exact h.laid.root_lt
  obtain ⟨path', hf⟩ := addBelow_spec n last hlegal h.laid hlt
  rw [hroot, nil_append] at hf
  have ht : t.addNodeToScope (some n) = ScopeTree.addBelow n (dirsFrom [] n.dir ++ [last]) t.root t := by
    rw [NodeDef.dir, ← hsplit]
    rfl
  rw [← ht] at hf
  -- no operator that was there lies in or below a directory that was not
  have hnew : ∀ s < (t.addNodeToScope (some n)).next, ¬ s < t.next → ∀ m ∈ l, ¬ path' s <+: m.dir := by
    intro s hs hlt m hm hpre
    obtain ⟨r, hr, hrm⟩ := h.found m hm
    obtain ⟨q, hq, hqs⟩ := exists_above h.laid r hr (path' s) (hrm ▸ hpre)
    have hqs' : path' q = path' s := (hf.path_eq q hq).trans hqs
    exact hlt (hf.laid.apart q (Nat.lt_of_lt_of_le hq hf.next_le) s hs hqs' ▸ hq)
  refine ⟨path', hf.laid, fun m hm => ?_, fun s hs => ?_, fun s hs ty => ?_⟩
  · rcases mem_append.mp hm with hm | hm
    · obtain ⟨s, hs, hpath⟩ := h.found m hm
      exact ⟨s, Nat.lt_of_lt_of_le hs hf.next_le, (hf.path_eq s hs).trans hpath⟩
    · rw [mem_singleton.mp hm]
      exact hf.found
  · have hone : [n].filter (fun m => m.dir = path' s) = if path' s = n.dir then [n] else [] := by
      simp [filter_singleton, eq_comm]
    rw [hf.nodes s hs, filter_append, hone]
    congr 1
    by_cases hlt : s < t.next
    · rw [h.nodes s hlt, hf.path_eq s hlt]
    · rw [h.laid.blank s (Nat.not_lt.mp hlt)]
      refine (filter_eq_nil_iff.mpr fun m hm => ?_).symm
      have hnot := hnew s hs hlt m hm
      simpa using fun heq : m.dir = path' s => hnot (heq ▸ prefix_refl _)
  · have hone : (([n].countP fun m => m.opType = ty ∧ path' s <+: m.dir : Nat) : Int) =
        if ty = n.opType ∧ [] <+: path' s ∧ path' s <+: n.dir then 1 else 0 := by
      rw [countP_singleton]
      by_cases hty : ty = n.opType
      · by_cases hpre : path' s <+: n.dir <;> simp [hty, hpre]
      · simp [hty, Ne.symm hty]
    rw [hf.counts s hs, countP_append, Int.natCast_add, hone]
    congr 1
    by_cases hlt : s < t.next
    · rw [h.counts s hlt, hf.path_eq s hlt]
    · have hnone : l.countP (fun m => m.opType = ty ∧ path' s <+: m.dir) = 0 := by
        rw [countP_eq_zero]
        intro m hm
        have hnot := hnew s hs hlt m hm
        simpa using fun _ => hnot
      rw [h.laid.blank s (Nat.not_lt.mp hlt), hnone]
      rfl

/-- Of the operators added, the tree holds those that have a component. -/
def filed (nodeDefs : List (Option NodeDef)) : List NodeDef := (nodeDefs.filterMap id).filter fun n => components n.name ≠ []

theorem Holds.run (nodeDefs : List (Option NodeDef)) : ∃ path, Holds (ScopeTree.addAll nodeDefs) path (filed nodeDefs) := by
  have hrun : ∀ t path l, Holds t path l → ∃ path', Holds (nodeDefs.foldl ScopeTree.addNodeToScope t) path'
    (l ++ filed nodeDefs) := by
    induction nodeDefs with
    | nil => exact fun t path l h => ⟨path, by simpa [filed] using h⟩
    | cons nodeDef nodeDefs ih =>
      intro t path l h
      rw [foldl_cons]
      cases nodeDef with
      | none => exact ih t path l h
      | some n =>
        by_cases hn : components n.name = []
        · have hsame : t.addNodeToScope (some n) = t := by
            rw [ScopeTree.addNodeToScope, splitNodeName_nil hn]
            rfl
          have hfiled : filed (some n :: nodeDefs) = filed nodeDefs := by simp [filed, hn]
          rw [hsame, hfiled]
          exact ih t path l h
        · have hfiled : filed (some n :: nodeDefs) = n :: filed nodeDefs := by simp [filed, hn]
          obtain ⟨path', h'⟩ := h.add hn
          rw [hfiled, append_cons]
          exact ih _ path' _ h'
  exact hrun _ _ [] holds_init

/-! ## The shape of the tree -/

theorem sub_iff (h : LaidOut t path) (hs : s < t.next) : t.Sub s d ↔ d < t.next ∧ ∃ item, path d = path s ++ [item] := by
  constructor
  · rintro ⟨name, hmem⟩
    obtain ⟨hd, hfather, -⟩ := (h.subs s hs name d).mp hmem
    exact ⟨hd, (father_iff h hd hs).mp hfather⟩
  · rintro ⟨hd, hitem⟩
    exact ⟨_, (h.subs s hs _ d).mpr ⟨hd, (father_iff h hd hs).mpr hitem, rfl⟩⟩

theorem lt_of_below (h : LaidOut t path) (hs : s < t.next) (hb : t.Below s d) : d < t.next := by
  induction hb with
  | refl => exact hs
  | tail _ hstep ih => exact ((sub_iff h ih).mp hstep).1

/-- What lies below a scope are the directories its own is the beginning of. -/
theorem below_iff (h : LaidOut t path) (hs : s < t.next) : t.Below s d ↔ d < t.next ∧ path s <+: path d := by
  constructor
  · intro hb
    refine ⟨lt_of_below h hs hb, ?_⟩
    induction hb with
    | refl => exact prefix_refl _
    | @tail b c hb hstep ih =>
      obtain ⟨-, item, hitem⟩ := (sub_iff h (lt_of_below h hs hb)).mp hstep
      rw [hitem]
      exact ih.trans (prefix_append _ _)
  · rintro ⟨hd, hpre⟩
    induction d using Nat.strongRecOn with
    | ind d ih =>
      by_cases h0 : d = 0
      · rw [h0, h.root_path, prefix_nil] at hpre
        rw [h.apart s hs d hd (by rw [hpre, h0, h.root_path])]
        exact .refl
      · obtain ⟨f, hf, item, -, hpath, -⟩ := h.filed d hd h0
        have hft : f < t.next := Nat.lt_trans hf hd
        rw [hpath, prefix_concat_iff] at hpre
        rcases hpre with heq | hpre
        · rw [h.apart s hs d hd (heq.trans hpath.symm)]
          exact .refl
        · exact (ih f hf hft hpre).tail ((sub_iff h hft).mpr ⟨hd, item, hpath⟩)

theorem sub_gt (h : LaidOut t path) (hsub : t.Sub s d) : s < d ∧ d < t.next := by
  have hs : s < t.next := by
    refine Nat.lt_of_not_le fun hle => ?_
    obtain ⟨name, hmem⟩ := hsub
    simp [h.blank s hle] at hmem
  obtain ⟨hlt, item, hpath⟩ := (sub_iff h hs).mp hsub
  have h0 : d ≠ 0 := by
    rintro rfl
    simp [h.root_path] at hpath
  obtain ⟨f, hf, -, hfather, -⟩ := h.filed d hlt h0
  rw [(father_iff h hlt hs).mpr ⟨item, hpath⟩] at hfather
  exact ⟨Option.some.inj hfather ▸ hf, hlt⟩

/-- A scope has one father. -/
theorem sub_unique (h : LaidOut t path) {m n : ScopeId} (hm : t.Sub m d) (hn : t.Sub n d) : m = n := by
  have hmt : m < t.next := Nat.lt_trans (sub_gt h hm).1 (sub_gt h hm).2
  have hnt : n < t.next := Nat.lt_trans (sub_gt h hn).1 (sub_gt h hn).2
  obtain ⟨-, i, hi⟩ := (sub_iff h hmt).mp hm
  obtain ⟨-, j, hj⟩ := (sub_iff h hnt).mp hn
  exact h.apart m hmt n hnt (append_inj' (hi.symm.trans hj) rfl).1

/-- All scopes are in the tree. -/
theorem inTree_iff (h : LaidOut t path) : t.InTree s ↔ s < t.next := by
  rw [ScopeTree.InTree, h.root, below_iff h h.root_lt, h.root_path]
  simp

theorem spells (h : LaidOut t path) : ∀ s < t.next, t.Spells s (path s) := by
  intro s
  induction s using Nat.strongRecOn with
  | ind s ih =>
    intro hs
    by_cases h0 : s = 0
    · rw [h0, h.root_path]
      have hroot := ScopeTree.Spells.root (t := t) (h.root.symm ▸ h.fatherless)
      rwa [h.root] at hroot
    · obtain ⟨f, hf, item, hfather, hpath, hname, -⟩ := h.filed s hs h0
      rw [hpath] at hname ⊢
      exact .sub hfather hname (ih f hf (Nat.lt_trans hf hs))

/-! ## What is held -/

/-- One operator is held in one scope, and counted below a scope when that is on its way. -/
theorem countP_scopes (h : LaidOut t path) {dir : List String} (hdir : ∃ r < t.next, path r = dir) :
    ((List.range t.next).filter fun d => path s <+: path d).countP (fun d => dir = path d) = if path s <+: dir then 1 else 0 := by
  obtain ⟨r, hr, rfl⟩ := hdir
  have hcongr : ((List.range t.next).filter fun d => path s <+: path d).countP (fun d => path r = path d) =
      ((List.range t.next).filter fun d => path s <+: path d).count r := by
    refine countP_congr fun d hd => ?_
    have hd : d < t.next := mem_range.mp (mem_of_mem_filter hd)
    have hiff : path r = path d ↔ d = r := ⟨fun heq => (h.apart r hr d hd heq).symm, fun heq => by rw [heq]⟩
    simp [hiff]
  rw [hcongr, (nodup_range.filter _).count]
  simp [hr]

open Classical in
theorem heldBelow_eq (h : Holds t path l) (hs : s < t.next) (ty : String) :
    t.heldBelow s ty = l.countP fun n => n.opType = ty ∧ path s <+: n.dir := by
  have hscopes : (t.scopes.filter fun d => t.Below s d) = (List.range t.next).filter fun d => path s <+: path d := by
    rw [h.laid.scopes]
    refine filter_congr fun d hd => ?_
    have hd : d < t.next := mem_range.mp hd
    simp [below_iff h.laid hs, hd]
  have hnodes : ∀ d ∈ (List.range t.next).filter fun d => path s <+: path d,
      (t.scope d).nodes.countP (fun n => n.opType = ty) = l.countP fun n => decide (n.opType = ty) && decide (n.dir = path d) := by
    intro d hd
    rw [h.nodes d (mem_range.mp (mem_of_mem_filter hd)), countP_filter]
  rw [ScopeTree.heldBelow, hscopes, map_congr_left hnodes,
    Adjacency.sum_countP _ l _ (fun n d => decide (n.dir = path d)) (fun n => decide (path s <+: n.dir)) fun n hn => ?_]
  · simp
  · rw [countP_scopes h.laid (h.found n hn)]
    simp

/-- A scope answers how many operators of a type are held from it down. -/
theorem getOpTypeNum_eq (h : Holds t path l) (hs : s < t.next) (ty : String) :
    (t.scope s).getOpTypeNum ty = if t.heldBelow s ty = 0 then -1 else (t.heldBelow s ty : Int) := by
  rw [(h.laid.counting s).getOpTypeNum_eq, h.counts s hs, ← heldBelow_eq h hs]
  simp

/-! ## The scopes below one -/

variable (order : HashOrder)

theorem mem_subsOf {s d : ScopeId} : d ∈ t.subsOf order s ↔ t.Sub s d := by
  unfold ScopeTree.subsOf ScopeTree.Sub
  rw [((order.perm _).map Prod.snd).mem_iff, List.mem_map]
  exact ⟨fun ⟨e, he, hd⟩ => ⟨e.1, hd ▸ he⟩, fun ⟨name, hmem⟩ => ⟨(name, d), hmem, rfl⟩⟩

/-- The stack holds the sub scopes of a scope taken off, the last on top. -/
def stackKids (t : ScopeTree) (s : ScopeId) : List ScopeId := (t.subsOf order s).reverse

theorem descend_eq (fuel : Nat) : ∀ {stack out} all, Preordered (stackKids order t) stack out → out.length ≤ fuel →
      t.descend order fuel stack all = some (all ++ out.flatMap (t.subsOf order)) := by
  induction fuel with
  | zero =>
    intro stack out all hp hfuel
    obtain rfl : out = [] := length_eq_zero_iff.mp (Nat.le_zero.mp hfuel)
    cases hp
    simp [ScopeTree.descend]
  | succ fuel ih =>
    intro stack out all hp hfuel
    cases hp with
    | nil => simp [ScopeTree.descend]
    | @cons s rest below after hbelow hafter =>
      have hrest := ih (all ++ t.subsOf order s) (hbelow.append hafter) (Nat.le_of_succ_le_succ hfuel)
      rw [stackKids] at hrest
      rw [ScopeTree.descend, hrest]
      simp

theorem flatMap_subsOf (out : List ScopeId) : (out.flatMap (t.subsOf order)).Perm (out.flatMap (stackKids order t)) :=
  List.Perm.flatMap_left out fun _ _ => (reverse_perm _).symm

/-- What is found from the sub scopes of a scope is they and all below them. -/
theorem descendEach_perm {fuel : Nat} {scopes out : List ScopeId} (hp : Preordered (stackKids order t) scopes out)
    (hfuel : out.length ≤ fuel) (all : List ScopeId) :
    ∃ found, t.descendEach order fuel scopes all = some found ∧ found.Perm (all ++ out) := by
  induction scopes generalizing out all with
  | nil =>
    cases hp
    exact ⟨all, rfl, by simp⟩
  | cons s scopes ih =>
    cases hp with
    | @cons _ _ below after hbelow hafter =>
      rw [length_cons, length_append] at hfuel
      have hone : Preordered (stackKids order t) [s] (s :: below) := by simpa using Preordered.cons hbelow .nil
      have hfirst := descend_eq order fuel (all ++ [s]) hone (by rw [length_cons]; omega)
      obtain ⟨found, hfound, hperm⟩ := ih hafter (by omega) (all ++ [s] ++ (s :: below).flatMap (t.subsOf order))
      refine ⟨found, by rw [ScopeTree.descendEach, hfirst]; exact hfound, hperm.trans ?_⟩
      have hbelow' : ([s] ++ (s :: below).flatMap (t.subsOf order)).Perm (s :: below) :=
        (List.Perm.append_left [s] (flatMap_subsOf order _)).trans hone.perm.symm
      calc (all ++ [s] ++ (s :: below).flatMap (t.subsOf order) ++ after).Perm
            (all ++ (([s] ++ (s :: below).flatMap (t.subsOf order)) ++ after)) := by simp
        _ |>.Perm (all ++ (s :: below ++ after)) := List.Perm.append_left all (List.Perm.append_right after hbelow')

theorem subsOf_gt (h : LaidOut t path) (hd : d ∈ t.subsOf order s) : s < d ∧ d < t.next := sub_gt h ((mem_subsOf order).mp hd)

/-- Going down to sub scopes ends. -/
theorem exists_preordered (h : LaidOut t path) {kids : ScopeId → List ScopeId} (hkids : ∀ s, kids s ⊆ t.subsOf order s)
    (scopes : List ScopeId) : ∃ out, Preordered kids scopes out := by
  refine Preordered.exists_of_acc fun s _ => ?_
  have hacc : ∀ k s, t.next - s = k → Acc (fun d s => d ∈ kids s) s := by
    intro k
    induction k using Nat.strongRecOn with
    | ind k ih =>
      intro s hk
      refine Acc.intro s fun d hd => ?_
      have hgt := subsOf_gt order h (hkids s hd)
      exact ih (t.next - d) (hk ▸ Nat.sub_lt_sub_left (Nat.lt_trans hgt.1 hgt.2) hgt.1) d rfl
  exact hacc _ s rfl

theorem nodup_subsOf (h : LaidOut t path) (hs : s < t.next) : (t.subsOf order s).Nodup := by
  have hnames : ∀ e ∈ (t.scope s).subScopes, (t.scope e.2).name = e.1 := fun e he => ((h.subs s hs e.1 e.2).mp he).2.2
  have hsnd : ((t.scope s).subScopes.map Prod.snd).Nodup := by
    refine List.Nodup.map_on (fun e he e' he' heq => Prod.ext ?_ heq) (h.keys s hs).of_map
    rw [← hnames e he, ← hnames e' he', heq]
  exact ((order.perm _).map Prod.snd).nodup_iff.mpr hsnd

/-- The scopes on a way down through sub scopes, each once: no more of them than there are scopes. -/
theorem nodup_preordered (h : LaidOut t path) {kids : ScopeId → List ScopeId} (hkids : ∀ s, (kids s).Subperm (t.subsOf order s))
    {scopes out : List ScopeId} (hp : Preordered kids scopes out) (hscopes : scopes.Nodup) (hlt : ∀ s ∈ scopes, s < t.next)
    (happart : ∀ m ∈ out, ∀ x ∈ kids m, x ∉ scopes) : out.Nodup ∧ out.length ≤ t.next := by
  have hsub : ∀ {m x}, x ∈ kids m → x ∈ t.subsOf order m := fun {m _} hx => (hkids m).subset hx
  have hrow : ∀ m, m < t.next → (kids m).Nodup := by
    intro m hm
    obtain ⟨l, hperm, hsublist⟩ := hkids m
    exact hperm.nodup_iff.mp (hsublist.nodup (nodup_subsOf order h hm))
  have hout : ∀ m ∈ out, m < t.next := by
    intro m hm
    rcases mem_append.mp (hp.perm.mem_iff.mp hm) with hm | hm
    · exact hlt m hm
    · obtain ⟨k, -, hm⟩ := mem_flatMap.mp hm
      exact (subsOf_gt order h (hsub hm)).2
  have hnodup : out.Nodup := hp.nodup hscopes
    (fun m hm => hrow m (hout m hm))
    (fun m _ n _ x hx hy => sub_unique h ((mem_subsOf order).mp (hsub hx)) ((mem_subsOf order).mp (hsub hy))) happart
  have hrange : out.Subperm (List.range t.next) := hnodup.subperm fun d hd => mem_range.mpr (hout d hd)
  exact ⟨hnodup, by simpa using hrange.length_le⟩

/-- What is found from the sub scopes of a scope, each once. -/
theorem descendEach_spec (h : LaidOut t path) (hs : s < t.next) {fuel : Nat} (hfuel : t.next ≤ fuel) :
    ∃ l, t.descendEach order fuel (t.subsOf order s) [] = some l ∧ l.Nodup ∧ ∀ d, d ∈ l ↔ TransGen t.Sub s d := by
  obtain ⟨out, hp⟩ := @exists_preordered _ _ order h (stackKids order t) (fun _ => reverse_subset.mpr (List.Subset.refl _))
    (t.subsOf order s)
  have hkid : ∀ {m n}, n ∈ stackKids order t m ↔ t.Sub m n := fun {m n} => mem_reverse.trans (mem_subsOf order)
  have hmem : ∀ d, d ∈ out ↔ TransGen t.Sub s d := by
    intro d
    have hrel : (fun m n => n ∈ stackKids order t m) = t.Sub := funext₂ fun m n => propext hkid
    rw [hp.mem_iff, hrel, TransGen.head'_iff]
    exact exists_congr fun r => and_congr_left' (mem_subsOf order)
  have hgt : ∀ d ∈ out, s < d := by
    intro d hd
    have hd := (hmem d).mp hd
    induction hd with
    | single hstep => exact (subsOf_gt order h ((mem_subsOf order).mpr hstep)).1
    | @tail b c hb hstep ih =>
      exact Nat.lt_trans (ih ((hmem b).mpr hb)) (subsOf_gt order h ((mem_subsOf order).mpr hstep)).1
  obtain ⟨hnodup, hlen⟩ := nodup_preordered order h (fun _ => (reverse_perm _).subperm) hp (nodup_subsOf order h hs)
    (fun d hd => (subsOf_gt order h hd).2) fun m hm x hx hxs => by
      have hms : m = s := sub_unique h (hkid.mp hx) ((mem_subsOf order).mp hxs)
      exact Nat.lt_irrefl s (hms ▸ hgt m hm)
  obtain ⟨found, hfound, hperm⟩ := descendEach_perm order hp (Nat.le_trans hlen hfuel) []
  rw [nil_append] at hperm
  exact ⟨found, hfound, hperm.nodup_iff.mpr hnodup, fun d => hperm.mem_iff.trans (hmem d)⟩

/-- `GetAllSubScopes`, first asked for, finds what lies properly below a scope, each once. -/
theorem getAllSubScopes_spec (h : LaidOut t path) (hs : s < t.next) {fuel : Nat} (hfuel : t.next ≤ fuel) :
    ∃ l t', t.getAllSubScopes order fuel s = some (l, t') ∧ l.Nodup ∧ ∀ d, d ∈ l ↔ TransGen t.Sub s d := by
  obtain ⟨found, hfound, hspec⟩ := descendEach_spec order h hs hfuel
  refine ⟨found, t.setScope s { t.scope s with allSubScopes := found }, ?_, hspec⟩
  rw [ScopeTree.getAllSubScopes, if_neg (by simp [h.uncached]), hfound]
  rfl

end ScopeTreeAux

open ScopeTreeAux in
/-- After any operators were added, however named, each with a component is held by one scope, whose fathers spell the components
before its last; no two sub scopes of a scope share a name; the scopes listed are those of the tree; and a scope answers with what
is held from it down, in number and scope by scope. -/
theorem addAll_filesEach (order : HashOrder) (nodeDefs : List (Option NodeDef)) :
    (ScopeTree.addAll nodeDefs).FilesEach order nodeDefs := by
  obtain ⟨path, h⟩ := Holds.run nodeDefs
  generalize ScopeTree.addAll nodeDefs = t at h
  have hmem : ∀ n, n ∈ filed nodeDefs ↔ some n ∈ nodeDefs ∧ components n.name ≠ [] := fun n => by simp [filed]
  have hnodes : ∀ s < t.next, ∀ n, n ∈ (t.scope s).nodes ↔ n ∈ filed nodeDefs ∧ n.dir = path s := by
    intro s hs n
    rw [h.nodes s hs]
    simp
  have hin : ∀ {s}, t.InTree s → s < t.next := fun hs => (inTree_iff h.laid).mp hs
  refine ⟨fun n hn hc => ?_, fun s hs n hn => ?_, fun s hs n hn => ?_, fun s hs => ?_, ?_, fun s hs ty => ?_,
    fun s hs fuel hfuel => ?_⟩
  · have hfiled := (hmem n).mpr ⟨hn, hc⟩
    obtain ⟨s, hs, hpath⟩ := h.found n hfiled
    refine ⟨s, ⟨(inTree_iff h.laid).mpr hs, (hnodes s hs n).mpr ⟨hfiled, hpath.symm⟩⟩, fun s' ⟨hs', hn'⟩ => ?_⟩
    exact h.laid.apart s' (hin hs') s hs (((hnodes s' (hin hs') n).mp hn').2.symm.trans hpath.symm)
  · exact (hmem n).mp ((hnodes s (hin hs) n).mp hn).1
  · rw [((hnodes s (hin hs) n).mp hn).2]
    exact spells h.laid s (hin hs)
  · have hnames : (t.scope s).subScopes.map (fun e => (t.scope e.2).name) = (t.scope s).subScopes.map Prod.fst :=
      map_congr_left fun e he => ((h.laid.subs s (hin hs) e.1 e.2).mp he).2.2
    rw [hnames]
    exact h.laid.keys s (hin hs)
  · rw [h.laid.scopes]
    exact ⟨nodup_range, fun s => mem_range.trans (inTree_iff h.laid).symm⟩
  · exact getOpTypeNum_eq h (hin hs) ty
  · rw [h.laid.scopes, length_range] at hfuel
    exact getAllSubScopes_spec order h.laid (hin hs) hfuel

end Metadef
