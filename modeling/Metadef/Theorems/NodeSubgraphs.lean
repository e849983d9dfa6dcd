import Metadef.Theorems.SubgraphTrees

/-!
# Removing the subgraphs of a node

`RemoveSubgraphsOnNode` empties the slots of the instance names one after the other while it looks for the subgraphs below them, and
ends with failure at a name that is not registered. An emptied slot is such a name.
-/

namespace Metadef

open Relation Heap ComputeGraph NodeUtils RefRelations List Function Cmd Marking OrderedMap RefRelationsAux NodeWalks

namespace Heap

/-- The names on the nodes of the graph a root has registered under a name. -/
def namesIn (h : Heap) (root : GraphId) (name : String) : Option (List String) :=
  ((h.graph root).namesToSubgraph.find name).map fun x => (h.graph x).nodes.flatMap fun m => (h.desc m).subgraphInstanceNames

/-- A name is on a node, or on a node of the graph of such a name, and so on. -/
def MeetsName (h : Heap) (root : GraphId) (n : NodeId) (name : String) : Prop :=
  ∃ a ∈ (h.desc n).subgraphInstanceNames, Worklist.Reaches (h.namesIn root) a name

/-- A root has a graph registered under a name. -/
def Registered (h : Heap) (root : GraphId) (name : String) : Prop := (h.graph root).namesToSubgraph.contains name = true

open Classical in
/-- The heap with the instance names of a node emptied and the subgraphs below it off the root, and otherwise as it was. -/
noncomputable def withoutSubgraphs (h : Heap) (root : GraphId) (n : NodeId) : Heap :=
  (h.setOp (h.node n).op { h.desc n with
    subgraphInstanceNames := List.replicate (h.desc n).subgraphInstanceNames.length "" }).setGraph root { h.graph root with
      subGraph := (h.graph root).subGraph.filter fun x => ¬ h.Below root n x
      namesToSubgraph := (h.graph root).namesToSubgraph.filter fun e => ¬ h.Below root n e.2 }

/-- The call ends. It succeeds where every name met is registered or empty, and then removes just the subgraphs below the node; where it
fails it changes nothing. -/
def RemovesSubgraphs (h : Heap) (root : GraphId) (n : NodeId) : Prop :=
  ∃ ok h', (∃ k, ∀ fuel, k ≤ fuel → removeSubgraphsOnNode fuel (some n) h = some (ok, h')) ∧
    ((∀ name, h.MeetsName root n name → name ≠ "" → h.Registered root name) → ok = true) ∧
    (ok = true → h' = h.withoutSubgraphs root n) ∧ (ok = false → h' = h)

/-- The subgraphs below a node are registered under names met, and each is in the list no more often than it is registered. -/
structure HeldAsMet (h : Heap) (root : GraphId) (n : NodeId) : Prop where
  names : ∀ e ∈ (h.graph root).namesToSubgraph, h.Below root n e.2 → h.MeetsName root n e.1
  list : ∀ x, h.Below root n x → (h.graph root).subGraph.count x ≤ (h.graph root).namesToSubgraph.countP fun e => e.2 = x

end Heap

namespace NodeSubgraphsAux

variable {h t : Heap} {root : GraphId} {n m : NodeId} {x y : GraphId} {a name : String}

/-! ## The names met -/

theorem namesIn_eq_none : h.namesIn root name = none ↔ ¬ h.Registered root name := by
  rw [Heap.namesIn, Option.map_eq_none_iff, find_eq_none, Heap.Registered, Bool.not_eq_true]

theorem registered_iff : h.Registered root name ↔ ∃ x, (h.graph root).namesToSubgraph.find name = some x := by
  rw [← Option.isSome_iff_exists, ← not_iff_not, ← namesIn_eq_none, Heap.namesIn, Option.map_eq_none_iff, Bool.not_eq_true,
    Option.isSome_eq_false_iff, Option.isNone_iff_eq_none]

/-- A name leads to those on the nodes of its graph. -/
theorem child_iff {b : String} : Worklist.Child (h.namesIn root) b a ↔
    ∃ x, (h.graph root).namesToSubgraph.find a = some x ∧ ∃ m ∈ (h.graph x).nodes, b ∈ (h.desc m).subgraphInstanceNames := by
  simp only [Worklist.Child, Heap.namesIn, Option.map_eq_some_iff]
  constructor
  · rintro ⟨l, ⟨x, hx, rfl⟩, hb⟩
    exact ⟨x, hx, List.mem_flatMap.mp hb⟩
  · rintro ⟨x, hx, hb⟩
    exact ⟨_, ⟨x, hx, rfl⟩, List.mem_flatMap.mpr hb⟩

theorem mem_resolved : x ∈ h.resolved root n ↔
    ∃ a ∈ (h.desc n).subgraphInstanceNames, (h.graph root).namesToSubgraph.find a = some x := mem_filterMap

/-- The graph of a name nests the graph of a name it leads to. -/
theorem nests_of_reaches (hr : Worklist.Reaches (h.namesIn root) a name) (hx : (h.graph root).namesToSubgraph.find a = some x)
    (hy : (h.graph root).namesToSubgraph.find name = some y) : ReflTransGen (h.Nests root) x y := by
  induction hr generalizing y with
  | refl =>
    obtain rfl : x = y := Option.some.inj (hx.symm.trans hy)
    exact .refl
  | tail _ hstep ih =>
    obtain ⟨z, hz, m, hm, hb⟩ := child_iff.mp hstep
    exact (ih hz).tail ⟨m, hm, mem_resolved.mpr ⟨_, hb, hy⟩⟩

/-- A subgraph is below a node when it is registered under a name met. -/
theorem below_iff : h.Below root n x ↔ ∃ name, h.MeetsName root n name ∧ (h.graph root).namesToSubgraph.find name = some x := by
  constructor
  · rintro ⟨m, hm, hx⟩
    obtain ⟨a, ha, hfind⟩ := mem_resolved.mp hx
    refine ⟨a, ?_, hfind⟩
    clear hfind hx
    induction hm generalizing a with
    | refl => exact ⟨a, ha, .refl⟩
    | tail _ hstep ih =>
      obtain ⟨y, hy, hnode⟩ := NestedAux.mem_inner.mp hstep
      obtain ⟨b, hb, hfind⟩ := mem_resolved.mp hy
      obtain ⟨c, hc, hreach⟩ := ih b hb
      exact ⟨c, hc, hreach.tail (child_iff.mpr ⟨y, hfind, _, hnode, ha⟩)⟩
  · rintro ⟨name, ⟨a, ha, hreach⟩, hfind⟩
    induction hreach generalizing x with
    | refl => exact ⟨n, .refl, mem_resolved.mpr ⟨a, ha, hfind⟩⟩
    | tail _ hstep ih =>
      obtain ⟨y, hy, m, hm, hb⟩ := child_iff.mp hstep
      obtain ⟨k, hk, hyk⟩ := ih hy
      exact ⟨m, hk.tail (NestedAux.mem_inner.mpr ⟨y, hyk, hm⟩), mem_resolved.mpr ⟨_, hb, hfind⟩⟩

/-- Where graphs nest without a cycle, no node below another has its descriptor. -/
theorem op_ne_of_met (hacyclic : ∀ x, ¬ TransGen (h.Nests root) x x) (hname : h.MeetsName root n name)
    (hx : (h.graph root).namesToSubgraph.find name = some x) (hm : m ∈ (h.graph x).nodes) : (h.node m).op ≠ (h.node n).op := by
  intro hop
  obtain ⟨a, ha, hreach⟩ := hname
  have hregistered : ∃ y, (h.graph root).namesToSubgraph.find a = some y := by
    rcases hreach.cases_head with rfl | ⟨b, hstep, -⟩
    · exact ⟨x, hx⟩
    · obtain ⟨y, hy, -⟩ := child_iff.mp hstep
      exact ⟨y, hy⟩
  obtain ⟨y, hy⟩ := hregistered
  have hback : h.Nests root x y := ⟨m, hm, mem_resolved.mpr ⟨a, by rw [Heap.desc, hop]; exact ha, hy⟩⟩
  exact hacyclic y (TransGen.tail' (nests_of_reaches hreach hy hx) hback)

/-- The names on a node and on the nodes of the registered graphs. -/
def allNames (h : Heap) (root : GraphId) (n : NodeId) : List String := (h.desc n).subgraphInstanceNames ++
  ((h.graph root).namesToSubgraph.map Prod.snd).flatMap fun x => (h.graph x).nodes.flatMap fun m => (h.desc m).subgraphInstanceNames

/-- The names met are among these. -/
theorem mem_of_met (hname : h.MeetsName root n name) : name ∈ allNames h root n := by
  obtain ⟨a, ha, hreach⟩ := hname
  rcases hreach.cases_tail with rfl | ⟨b, -, hstep⟩
  · exact mem_append_left _ ha
  · obtain ⟨x, hx, m, hm, hmem⟩ := child_iff.mp hstep
    exact mem_append_right _ (List.mem_flatMap.mpr
      ⟨x, List.mem_map.mpr ⟨_, mem_of_find hx, rfl⟩, List.mem_flatMap.mpr ⟨m, hm, hmem⟩⟩)

/-! ## The search -/

/-- The heap with the first slots of the node emptied. -/
def clearedTo (h : Heap) (n : NodeId) (i : Nat) : Heap := h.setOp (h.node n).op { h.desc n with
  subgraphInstanceNames := List.replicate i "" ++ (h.desc n).subgraphInstanceNames.drop i }

theorem clearedTo_zero : clearedTo h n 0 = h := by
  rw [clearedTo, replicate_zero, drop_zero, nil_append]
  exact congrArg (fun f => { h with op := f }) (update_eq_self _ _)

theorem desc_clearedTo (i : Nat) : (clearedTo h n i).desc n = { h.desc n with
    subgraphInstanceNames := List.replicate i "" ++ (h.desc n).subgraphInstanceNames.drop i } := update_self ..

/-- Behind empty slots the first slot of a name is emptied. -/
theorem removeSubgraphInstanceName_behind {op : OpDesc} {i : Nat} {rest : List String}
    (hop : op.subgraphInstanceNames = List.replicate i "" ++ a :: rest) :
    op.removeSubgraphInstanceName a = { op with subgraphInstanceNames := List.replicate (i + 1) "" ++ rest } := by
  have hsplit : List.replicate (i + 1) "" ++ rest = List.replicate i "" ++ "" :: rest := by
    rw [replicate_succ', append_assoc, singleton_append]
  rw [OpDesc.removeSubgraphInstanceName]
  by_cases hempty : a = ""
  · subst hempty
    rw [← hsplit] at hop
    cases hfirst : op.subgraphInstanceNames.findIdx? (· = "") with
    | none => rw [← hop]
    | some k =>
      obtain ⟨hlt, hk, -⟩ := List.findIdx?_eq_some_iff_getElem.mp hfirst
      have hset : op.subgraphInstanceNames.set k "" = op.subgraphInstanceNames := by
        rw [← of_decide_eq_true hk, set_getElem_self]
      simp only [hset]
      rw [← hop]
  · have hfirst : op.subgraphInstanceNames.findIdx? (· = a) = some i := by
      have hnone : (List.replicate i "").findIdx? (· = a) = none := List.findIdx?_eq_none_iff.mpr fun b hb => by
        rw [(List.mem_replicate.mp hb).2]
        exact decide_eq_false (Ne.symm hempty)
      rw [hop, findIdx?_append, hnone, Option.none_or, findIdx?_cons, if_pos (decide_eq_true rfl), length_replicate,
        Option.map_some, Nat.zero_add]
    simp only [hfirst]
    rw [hop, hsplit, set_append_right _ _ (by rw [length_replicate]), length_replicate, Nat.sub_self,
      set_cons_zero]

/-- A name that is taken off empties the next slot. -/
theorem editOp_clearedTo {i : Nat} (ha : (h.desc n).subgraphInstanceNames[i]? = some a) :
    Node.editOp n (fun op => (true, op.removeSubgraphInstanceName a)) (clearedTo h n i) = some (true, clearedTo h n (i + 1)) := by
  obtain ⟨hlt, hget⟩ := List.getElem?_eq_some_iff.mp ha
  have hnames : ((clearedTo h n i).desc n).removeSubgraphInstanceName a = (clearedTo h n (i + 1)).desc n := by
    rw [desc_clearedTo, desc_clearedTo, ← hget, removeSubgraphInstanceName_behind (by rw [← drop_eq_getElem_cons hlt])]
  have hop : ((clearedTo h n i).node n).op = (h.node n).op := rfl
  rw [CallAux.editOp_apply, hnames, hop, desc_clearedTo]
  exact congrArg (fun f => some (true, { h with op := f })) (update_idem ..)

/-- Below the node the names are as they were. -/
theorem namesBelow_clearedTo (hroot : (h.graph root).parentGraph = none) (hacyclic : ∀ x, ¬ TransGen (h.Nests root) x x)
    (hname : h.MeetsName root n name) (i fuel : Nat) :
    namesBelow (clearedTo h n i) (fuel + 1) root name = h.namesIn root name := by
  rw [namesBelow, Heap.namesIn, getSubgraph_root (h := clearedTo h n i) hroot, Option.join_some]
  show Option.map _ ((h.graph root).namesToSubgraph.find name) = _
  cases hx : (h.graph root).namesToSubgraph.find name with
  | none => rfl
  | some x =>
    refine congrArg some (flatMap_congr fun m hm => ?_)
    have hne := op_ne_of_met hacyclic hname hx hm
    exact congrArg OpDesc.subgraphInstanceNames (update_of_ne hne ..)

/-- The names met so far lead to each other only. -/
structure Closed (h : Heap) (root : GraphId) (met : List String) : Prop where
  nodup : met.Nodup
  closed : ∀ name ∈ met, ∃ l, h.namesIn root name = some l ∧ l ⊆ met

/-- A name leads to registered names only. -/
def Complete (h : Heap) (root : GraphId) (a : String) : Prop := ∀ name, Worklist.Reaches (h.namesIn root) a name →
    h.Registered root name

/-- A name is taken off, and the search decides whether the loop goes on. -/
theorem collectSubgraphs_cons {fuel : Nat} {names met : List String} {t t' : Heap} {r : Option (List String)}
    (hedit : Node.editOp n (fun op => (true, op.removeSubgraphInstanceName a)) t = some (true, t'))
    (hr : Marking.search (namesBelow t' fuel root) fuel [a] (met.insert a) = some r) :
    collectSubgraphs fuel root n (a :: names) met t =
      r.elim (some (none, t')) fun met' => collectSubgraphs fuel root n names met' t' := by
  rw [collectSubgraphs, bind_of_eq hedit, get_bind_apply, hr]
  cases r <;> rfl

section

variable (hroot : (h.graph root).parentGraph = none) (hacyclic : ∀ x, ¬ TransGen (h.Nests root) x x)
include hroot hacyclic

/-- One round: it fails when a name is reached that is not registered, and otherwise what is reached is met. -/
theorem round {met : List String} (hm : Closed h root met) (ha : a ∈ (h.desc n).subgraphInstanceNames) (i : Nat) {fuel : Nat}
    (hfuel : (allNames h root n).length < fuel) : ∃ r,
      Marking.search (namesBelow (clearedTo h n i) fuel root) fuel [a] (met.insert a) = some r ∧
        (r = none → ¬ Complete h root a) ∧ ∀ out, r = some out →
          Complete h root a ∧ Closed h root out ∧ ∀ name, name ∈ out ↔ name ∈ met ∨ Worklist.Reaches (h.namesIn root) a name := by
  obtain ⟨k, rfl⟩ := Nat.exists_eq_add_of_lt hfuel
  have hinit := Marking.Extending.init hm.nodup hm.closed a
  have hmet : ∀ name, Worklist.Reaches (h.namesIn root) a name → h.MeetsName root n name := fun name hr => ⟨a, ha, hr⟩
  have hcongr : ∀ name, Worklist.Reaches (h.namesIn root) a name →
      namesBelow (clearedTo h n i) ((allNames h root n).length + k + 1) root name = h.namesIn root name := fun name hr =>
    namesBelow_clearedTo hroot hacyclic (hmet name hr) i _
  obtain ⟨r, hr⟩ := returns_of_extending (allNames h root n) (fun name hreach => mem_of_met (hmet name hreach))
    ((allNames h root n).length + k + 1) [] [a] (met.insert a) hinit (by rw [length_nil]; omega)
  refine ⟨r, (search_congr hcongr _ hinit).trans hr, ?_, ?_⟩
  · rintro rfl hcomplete
    obtain ⟨name, hreach, hnone⟩ := fails_of_search hinit hr
    exact namesIn_eq_none.mp hnone (hcomplete name hreach)
  · rintro out rfl
    obtain ⟨hnodup, hmem, hclosed⟩ := search_extends hinit hr
    refine ⟨fun name hreach => ?_, ⟨hnodup, hclosed⟩, hmem⟩
    by_contra hnot
    obtain ⟨l, hl, -⟩ := hclosed name ((hmem name).mpr (.inr hreach))
    rw [namesIn_eq_none.mpr hnot] at hl
    cases hl

/-- The loop over the names empties the slots up to the first name that does not lead to registered names only. -/
theorem collect_run {fuel : Nat} (hfuel : (allNames h root n).length < fuel) : ∀ (names done : List String) {met : List String},
    (h.desc n).subgraphInstanceNames = done ++ names → Closed h root met →
    (∃ out, (∀ a ∈ names, Complete h root a) ∧ Closed h root out ∧
      (∀ name, name ∈ out ↔ name ∈ met ∨ ∃ a ∈ names, Worklist.Reaches (h.namesIn root) a name) ∧
      collectSubgraphs fuel root n names met (clearedTo h n done.length) =
        some (some out, clearedTo h n (h.desc n).subgraphInstanceNames.length)) ∨
    ∃ before a after, names = before ++ a :: after ∧ (∀ b ∈ before, Complete h root b) ∧ ¬ Complete h root a ∧
      collectSubgraphs fuel root n names met (clearedTo h n done.length) =
        some (none, clearedTo h n (done.length + before.length + 1)) := by
  intro names
  induction names with
  | nil =>
    intro done met hdone hm
    refine .inl ⟨met, nofun, hm, fun name => by simp, ?_⟩
    rw [hdone, append_nil]
    rfl
  | cons a names ih =>
    intro done met hdone hm
    have ha : a ∈ (h.desc n).subgraphInstanceNames := hdone ▸ mem_append_right _ mem_cons_self
    have hedit := editOp_clearedTo (h := h) (n := n) (i := done.length) (a := a) (by
      rw [hdone, getElem?_append_right (Nat.le_refl _), Nat.sub_self, getElem?_cons_zero])
    obtain ⟨r, hr, hnone, hsome⟩ := round hroot hacyclic hm ha (done.length + 1) hfuel
    have hstep := @collectSubgraphs_cons root n a fuel names met _ _ r hedit hr
    cases r with
    | none =>
      exact .inr ⟨[], a, names, rfl, nofun, hnone rfl, hstep⟩
    | some met' =>
      obtain ⟨hcomplete, hm', hmem⟩ := hsome met' rfl
      have hlen : (done ++ [a]).length = done.length + 1 := length_append
      have hrest := ih (done ++ [a]) (by rw [hdone, append_assoc, singleton_append]) hm'
      rw [hlen] at hrest
      rcases hrest with ⟨out, hall, hout, hmemout, hrun⟩ | ⟨before, b, after, rfl, hall, hnot, hrun⟩
      · refine .inl ⟨out, List.forall_mem_cons.mpr ⟨hcomplete, hall⟩, hout, fun name => ?_, hstep.trans hrun⟩
        rw [hmemout, hmem, or_assoc]
        simp
      · refine .inr ⟨a :: before, b, after, rfl, List.forall_mem_cons.mpr ⟨hcomplete, hall⟩, hnot, hstep.trans ?_⟩
        have hcount : done.length + 1 + before.length + 1 = done.length + (a :: before).length + 1 := by rw [length_cons]; omega
        rwa [Option.elim_some, ← hcount]

end

/-- More fuel changes nothing once the loop ends. -/
theorem collectSubgraphs_mono {r : Option (List String) × Heap} {fuel : Nat} (d : Nat) : ∀ {names met : List String} {t : Heap},
    (t.graph root).parentGraph = none → collectSubgraphs (fuel + 1) root n names met t = some r →
      collectSubgraphs (fuel + 1 + d) root n names met t = some r := by
  intro names
  induction names with
  | nil => exact fun {_ _} _ hr => hr
  | cons a names ih =>
    intro met t hroot hr
    let u := t.setOp (t.node n).op ((t.desc n).removeSubgraphInstanceName a)
    have hedit : Node.editOp n (fun op => (true, op.removeSubgraphInstanceName a)) t = some (true, u) := CallAux.editOp_apply ..
    have hbelow : namesBelow u (fuel + 1 + d) root = namesBelow u (fuel + 1) root := by
      funext name
      rw [namesBelow, namesBelow, Nat.add_right_comm, getSubgraph_root (h := u) hroot, getSubgraph_root
        (h := u) hroot]
    rw [collectSubgraphs, bind_of_eq hedit, get_bind_apply] at hr
    cases hs : Marking.search (namesBelow u (fuel + 1) root) (fuel + 1) [a] (met.insert a) with
    | none =>
      rw [hs] at hr
      cases hr
    | some found =>
      have hs' := search_mono d hs
      rw [collectSubgraphs_cons hedit (hbelow.symm ▸ hs')]
      rw [hs] at hr
      cases found with
      | none => exact hr
      | some met' => exact ih (t := u) hroot hr

/-! ## The removal -/

/-- The heap with the list and the map of a graph written. -/
def putRegistries (root : GraphId) (t : Heap) (s : List GraphId × OrderedMap String GraphId) : Heap :=
  t.setGraph root { t.graph root with subGraph := s.1, namesToSubgraph := s.2 }

theorem removeSubgraph_eq (s : List GraphId × OrderedMap String GraphId) (name : String) :
    removeSubgraph root name (putRegistries root t s) = some ((), putRegistries root t (Registry.takeOut s name)) := by
  have hgraph : (putRegistries root t s).graph root = { t.graph root with subGraph := s.1, namesToSubgraph := s.2 } :=
    update_self ..
  rw [removeSubgraph, get_bind_apply, hgraph, Registry.takeOut]
  cases s.2.find name with
  | none => rfl
  | some x => simp [putRegistries, edit, setGraph]

/-- Removing names one after the other takes them out of the registries. -/
theorem removeSubgraph_each (root : GraphId) (t : Heap) : ∀ (names : List String) (s : List GraphId × OrderedMap String GraphId),
    Cmd.each (fun name => do removeSubgraph root name; return true) names (putRegistries root t s) =
      some ((), putRegistries root t (names.foldl Registry.takeOut s)) := by
  intro names
  induction names with
  | nil => exact fun _ => rfl
  | cons name names ih =>
    intro s
    have hstep : (do removeSubgraph root name; return true : Cmd Heap Bool) (putRegistries root t s) =
        some (true, putRegistries root t (Registry.takeOut s name)) := by
      rw [bind_of_eq (removeSubgraph_eq s name)]
      rfl
    rw [Cmd.each, bind_of_eq hstep, foldl_cons]
    exact ih _

theorem putRegistries_self : putRegistries root t ((t.graph root).subGraph, (t.graph root).namesToSubgraph) = t :=
  congrArg (fun f => { t with graph := f }) (update_eq_self _ _)

/-! ## The call -/

/-- The heap after a call that succeeds, with the names met. -/
def removed (h : Heap) (root : GraphId) (n : NodeId) (met : List String) : Heap :=
  putRegistries root (clearedTo h n (h.desc n).subgraphInstanceNames.length)
    ((h.graph root).subGraph.diff (met.filterMap (h.graph root).namesToSubgraph.find),
      (h.graph root).namesToSubgraph.filter fun e => e.1 ∉ met)

theorem removed_nil (hnames : (h.desc n).subgraphInstanceNames = []) : removed h root n [] = h := by
  rw [removed, hnames, length_nil, clearedTo_zero, filterMap_nil, diff_nil,
    List.filter_eq_self.mpr fun e _ => decide_eq_true not_mem_nil]
  exact putRegistries_self

/-- The subgraphs met are taken out, unless there was a name that is not registered. -/
def removeMet (root : GraphId) : Option (List String) → Cmd Heap Bool
  | none => return false
  | some met => do
    Cmd.each (fun name => do removeSubgraph root name; return true) (met.insertionSort (· ≤ ·))
    return true

section

variable {g : GraphId} (howner : (h.node n).ownerGraph = some g) (hg : ∃ k, findRootGraph h k g = some root)
  (hacyclic : ∀ x, ¬ TransGen (h.Nests root) x x)
include howner hg hacyclic

/-- The call succeeds where the names of the node lead to registered names only; otherwise it fails with the slots emptied up to the first
one that does not. -/
theorem call_run : (∃ met, (∀ a ∈ (h.desc n).subgraphInstanceNames, Complete h root a) ∧ met.Nodup ∧
      (∀ name, name ∈ met ↔ h.MeetsName root n name) ∧
      ∃ k, ∀ fuel, k ≤ fuel → removeSubgraphsOnNode fuel (some n) h = some (true, removed h root n met)) ∨
    ∃ before a after, (h.desc n).subgraphInstanceNames = before ++ a :: after ∧ (∀ b ∈ before, Complete h root b) ∧
      ¬ Complete h root a ∧
        ∃ k, ∀ fuel, k ≤ fuel → removeSubgraphsOnNode fuel (some n) h = some (false, clearedTo h n (before.length + 1)) := by
  obtain ⟨k, hk⟩ := hg
  have hroot := (getSubgraph_of_root hk "").1
  have hfind : ∀ fuel, k ≤ fuel → findRootGraph h fuel g = some root := fun fuel hle => by
    obtain ⟨d, rfl⟩ := Nat.exists_eq_add_of_le hle
    exact findRootGraph_mono hk d
  have hempty : Closed h root [] := ⟨nodup_nil, nofun⟩
  have hcollect := collect_run hroot hacyclic (Nat.lt_succ_self (allNames h root n).length)
    (h.desc n).subgraphInstanceNames [] rfl hempty
  have hcall : ∀ fuel, k ≤ fuel → (h.desc n).subgraphInstanceNames ≠ [] → removeSubgraphsOnNode fuel (some n) h =
      (collectSubgraphs fuel root n (h.desc n).subgraphInstanceNames [] >>= removeMet root) h := fun fuel hle hne => by
    rw [removeSubgraphsOnNode, get_bind_apply, if_neg (by simpa using hne)]
    simp only [howner, hfind fuel hle]
    refine congrFun (congrArg _ (funext fun r => ?_)) h
    cases r <;> rfl
  have hmono : ∀ {r fuel}, (allNames h root n).length + 1 ≤ fuel →
      collectSubgraphs ((allNames h root n).length + 1) root n (h.desc n).subgraphInstanceNames [] h = some r →
        collectSubgraphs fuel root n (h.desc n).subgraphInstanceNames [] h = some r := fun {r fuel} hle hr => by
    obtain ⟨d, rfl⟩ := Nat.exists_eq_add_of_le hle
    exact collectSubgraphs_mono d hroot hr
  rw [length_nil, clearedTo_zero] at hcollect
  rcases hcollect with ⟨met, hall, hclosed, hmem, hr⟩ | ⟨before, a, after, hsplit, hall, hnot, hr⟩
  · refine .inl ⟨met.insertionSort (· ≤ ·), hall, (perm_insertionSort _ met).nodup_iff.mpr hclosed.nodup, fun name => ?_,
      k + (allNames h root n).length + 1, fun fuel hle => ?_⟩
    · rw [(perm_insertionSort _ met).mem_iff, hmem, or_iff_right not_mem_nil, Heap.MeetsName]
    · by_cases hne : (h.desc n).subgraphInstanceNames = []
      · have hmet : met = [] := List.eq_nil_iff_forall_not_mem.mpr fun name hname => by
          obtain ⟨a, ha, -⟩ := ((hmem name).mp hname).resolve_left not_mem_nil
          rw [hne] at ha
          cases ha
        rw [removeSubgraphsOnNode, get_bind_apply, if_pos (by simpa using hne), hmet, insertionSort_nil, removed_nil hne]
        rfl
      · rw [hcall fuel (by omega) hne, bind_of_eq (hmono (by omega) hr)]
        have heach := removeSubgraph_each root (clearedTo h n (h.desc n).subgraphInstanceNames.length)
          (met.insertionSort (· ≤ ·)) ((h.graph root).subGraph, (h.graph root).namesToSubgraph)
        rw [Registry.foldl_takeOut ((perm_insertionSort _ met).nodup_iff.mpr hclosed.nodup)] at heach
        show (Cmd.each _ _ >>= _) _ = _
        have hself : putRegistries root (clearedTo h n (h.desc n).subgraphInstanceNames.length)
            ((h.graph root).subGraph, (h.graph root).namesToSubgraph) = _ := putRegistries_self
        rw [hself] at heach
        rw [bind_of_eq heach]
        rfl
  · refine .inr ⟨before, a, after, hsplit, hall, hnot, k + (allNames h root n).length + 1, fun fuel hle => ?_⟩
    have hne : (h.desc n).subgraphInstanceNames ≠ [] := by
      rw [hsplit]
      exact append_ne_nil_of_right_ne_nil _ (cons_ne_nil a after)
    rw [hcall fuel (by omega) hne, bind_of_eq (hmono (by omega) hr), Nat.zero_add]
    rfl

end

/-- What the call leaves is what it should when the subgraphs below the node are held as they are met. -/
theorem removed_iff {met : List String} (hkeys : ((h.graph root).namesToSubgraph.map Prod.fst).Nodup)
    (hall : ∀ a ∈ (h.desc n).subgraphInstanceNames, Complete h root a) (hmet : met.Nodup)
    (hmem : ∀ name, name ∈ met ↔ h.MeetsName root n name) :
    removed h root n met = h.withoutSubgraphs root n ↔ h.HeldAsMet root n := by
  classical
  have hbelow : ∀ x, x ∈ met.filterMap (h.graph root).namesToSubgraph.find ↔ h.Below root n x := fun x => by
    rw [below_iff, mem_filterMap]
    exact exists_congr fun name => and_congr_left fun _ => hmem name
  have hfound : ∀ name ∈ met, (h.graph root).namesToSubgraph.find name ≠ none := fun name hname hnone => by
    obtain ⟨a, ha, hreach⟩ := (hmem name).mp hname
    obtain ⟨x, hx⟩ := registered_iff.mp (hall a ha name hreach)
    rw [hx] at hnone
    cases hnone
  have htaken := Registry.takenOut_iff (l := (h.graph root).subGraph) (p := fun x => decide (¬ h.Below root n x)) hkeys hmet hfound
    fun x => by rw [decide_eq_true_iff, hbelow]
  have hslots : List.replicate (h.desc n).subgraphInstanceNames.length "" ++
      (h.desc n).subgraphInstanceNames.drop (h.desc n).subgraphInstanceNames.length =
        List.replicate (h.desc n).subgraphInstanceNames.length "" := by rw [drop_length, append_nil]
  have hgraph : ∀ s, (putRegistries root (clearedTo h n (h.desc n).subgraphInstanceNames.length) s).graph root =
      { h.graph root with subGraph := s.1, namesToSubgraph := s.2 } := fun s => update_self ..
  have hgoal : h.withoutSubgraphs root n = putRegistries root (clearedTo h n (h.desc n).subgraphInstanceNames.length)
      ((h.graph root).subGraph.filter fun x => ¬ h.Below root n x,
        (h.graph root).namesToSubgraph.filter fun e => ¬ h.Below root n e.2) := by
    rw [withoutSubgraphs, putRegistries, clearedTo, hslots]
    rfl
  rw [hgoal, removed]
  refine Iff.trans ⟨fun heq => ?_, fun heq => by rw [heq.1, heq.2]⟩ (htaken.trans ⟨fun hheld => ⟨fun e he hx => ?_, fun x hx => ?_⟩,
    fun hheld => ⟨fun e he hx => ?_, fun x hx => ?_⟩⟩)
  · have hroot := congrArg (fun t : Heap => t.graph root) heq
    simp only [hgraph] at hroot
    exact ⟨congrArg ComputeGraph.subGraph hroot, congrArg ComputeGraph.namesToSubgraph hroot⟩
  · exact (hmem _).mp (hheld.1 e he ((hbelow _).mpr hx))
  · exact hheld.2 x ((hbelow x).mpr hx)
  · exact (hmem _).mpr (hheld.names e he ((hbelow _).mp hx))
  · exact hheld.list x ((hbelow x).mp hx)

/-- Emptying slots changes the node unless they are empty. -/
theorem clearedTo_eq_iff {i : Nat} (hi : i ≤ (h.desc n).subgraphInstanceNames.length) :
    clearedTo h n i = h ↔ ∀ a ∈ (h.desc n).subgraphInstanceNames.take i, a = "" := by
  have hsplit := take_append_drop i (h.desc n).subgraphInstanceNames
  have hlen : ((h.desc n).subgraphInstanceNames.take i).length = i := by rw [length_take, Nat.min_eq_left hi]
  constructor
  · intro heq a ha
    have hnames := congrArg (fun t => (Heap.desc t n).subgraphInstanceNames) heq
    simp only [desc_clearedTo] at hnames
    have htake := congrArg (List.take i) hnames
    rw [take_append_of_le_length (by rw [length_replicate]), take_replicate, Nat.min_self] at htake
    rw [← htake] at ha
    exact (List.mem_replicate.mp ha).2
  · intro hall
    have htake : (h.desc n).subgraphInstanceNames.take i = List.replicate i "" := List.eq_replicate_iff.mpr ⟨hlen, hall⟩
    rw [clearedTo, ← htake, hsplit]
    exact congrArg (fun f => { h with op := f }) (update_eq_self _ _)

/-- The call has one result. -/
theorem result_unique {ok ok' : Bool} {t u : Heap}
    (ht : ∃ k, ∀ fuel, k ≤ fuel → removeSubgraphsOnNode fuel (some n) h = some (ok, t))
    (hu : ∃ k, ∀ fuel, k ≤ fuel → removeSubgraphsOnNode fuel (some n) h = some (ok', u)) : ok = ok' ∧ t = u := by
  obtain ⟨k, hk⟩ := ht
  obtain ⟨k', hk'⟩ := hu
  exact Prod.mk.inj (Option.some.inj ((hk (k + k') (by omega)).symm.trans (hk' (k + k') (by omega))))

section

variable {g : GraphId} (howner : (h.node n).ownerGraph = some g) (hg : ∃ k, findRootGraph h k g = some root)
  (hkeys : ((h.graph root).namesToSubgraph.map Prod.fst).Nodup) (hacyclic : ∀ x, ¬ TransGen (h.Nests root) x x)
include howner hg hkeys hacyclic

/-- When the call succeeds. -/
theorem removes_of_complete (hall : ∀ a ∈ (h.desc n).subgraphInstanceNames, Complete h root a) :
    h.RemovesSubgraphs root n ↔ h.HeldAsMet root n := by
  rcases call_run howner hg hacyclic with ⟨met, -, hnodup, hmem, hrun⟩ | ⟨before, a, after, hsplit, -, hnot, -⟩
  · have hremoved := removed_iff hkeys hall hnodup hmem
    constructor
    · rintro ⟨ok, h', hrun', -, hexact, -⟩
      obtain ⟨rfl, rfl⟩ := result_unique hrun hrun'
      exact hremoved.mp (hexact rfl)
    · exact fun hheld => ⟨true, _, hrun, fun _ => rfl, fun _ => hremoved.mpr hheld, nofun⟩
  · exact absurd (hall a (hsplit ▸ mem_append_right _ mem_cons_self)) hnot

omit hkeys in
/-- When the call fails. -/
theorem removes_of_incomplete (hall : ¬ ∀ a ∈ (h.desc n).subgraphInstanceNames, Complete h root a) :
    h.RemovesSubgraphs root n ↔ (∃ name, h.MeetsName root n name ∧ name ≠ "" ∧ ¬ h.Registered root name) ∧
      (h.desc n).subgraphInstanceNames.head? = some "" ∧ ¬ Complete h root "" := by
  rcases call_run howner hg hacyclic with ⟨met, hall', -⟩ | ⟨before, a, after, hsplit, hbefore, hnot, hrun⟩
  · exact absurd hall' hall
  have hlen : before.length + 1 ≤ (h.desc n).subgraphInstanceNames.length := by
    rw [hsplit, length_append, length_cons]
    omega
  have htake : (h.desc n).subgraphInstanceNames.take (before.length + 1) = before ++ [a] := by
    rw [hsplit, take_length_add_append, take_succ_cons, take_zero]
  have hkept := clearedTo_eq_iff hlen
  rw [htake] at hkept
  constructor
  · rintro ⟨ok, h', hrun', hsucceeds, -, hunchanged⟩
    obtain ⟨rfl, rfl⟩ := result_unique hrun hrun'
    have hempty := hkept.mp (hunchanged rfl)
    obtain rfl : a = "" := hempty a (by simp)
    refine ⟨?_, ?_, hnot⟩
    · by_contra hnone
      refine absurd (hsucceeds fun name hname hne => ?_) Bool.false_ne_true
      by_contra hmissing
      exact hnone ⟨name, hname, hne, hmissing⟩
    · rw [hsplit]
      cases before with
      | nil => rfl
      | cons b before => exact congrArg some (hempty b (by simp))
  · rintro ⟨⟨name, hname, hne, hmissing⟩, hhead, hincomplete⟩
    obtain rfl : before = [] := by
      cases before with
      | nil => rfl
      | cons b before =>
        rw [hsplit] at hhead
        obtain rfl : b = "" := Option.some.inj hhead
        exact absurd (hbefore "" mem_cons_self) hincomplete
    have ha : a = "" := by
      rw [hsplit] at hhead
      exact Option.some.inj hhead
    refine ⟨false, _, hrun, fun hsucceeds => absurd (hsucceeds name hname hne) hmissing, nofun, fun _ => hkept.mpr fun b hb => ?_⟩
    exact (List.mem_singleton.mp hb).trans ha

omit howner hg hkeys hacyclic in
/-- All names met are registered when those of the node lead to registered names only. -/
theorem complete_iff : (∀ name, h.MeetsName root n name → h.Registered root name) ↔
    ∀ a ∈ (h.desc n).subgraphInstanceNames, Complete h root a :=
  ⟨fun hall a ha name hr => hall name ⟨a, ha, hr⟩, fun hall name ⟨a, ha, hr⟩ => hall a ha name hr⟩

end

end NodeSubgraphsAux

open NodeSubgraphsAux

/-- In a root graph whose graphs nest without a cycle the subgraphs of a node are removed, or nothing is changed, if and only if all names
met are registered and the subgraphs below the node held as they are met, or a name met is neither registered nor empty and the first
slot of the node is an empty one from which the search fails. -/
theorem removesSubgraphs_iff {h : Heap} {g root : GraphId} {n : NodeId} (howner : (h.node n).ownerGraph = some g)
    (hg : ∃ k, findRootGraph h k g = some root) (hkeys : ((h.graph root).namesToSubgraph.map Prod.fst).Nodup)
    (hacyclic : ∀ x, ¬ TransGen (h.Nests root) x x) :
    h.RemovesSubgraphs root n ↔ ((∀ name, h.MeetsName root n name → h.Registered root name) ∧ h.HeldAsMet root n) ∨
      ((∃ name, h.MeetsName root n name ∧ name ≠ "" ∧ ¬ h.Registered root name) ∧
        (h.desc n).subgraphInstanceNames.head? = some "" ∧
          ∃ name, Worklist.Reaches (h.namesIn root) "" name ∧ ¬ h.Registered root name) := by
  rw [complete_iff]
  by_cases hall : ∀ a ∈ (h.desc n).subgraphInstanceNames, Complete h root a
  · rw [removes_of_complete howner hg hkeys hacyclic hall]
    refine ⟨fun hheld => .inl ⟨hall, hheld⟩, ?_⟩
    rintro (⟨-, hheld⟩ | ⟨⟨name, hname, -, hmissing⟩, -⟩)
    · exact hheld
    · exact absurd (complete_iff.mpr hall name hname) hmissing
  · rw [removes_of_incomplete howner hg hacyclic hall, Complete]
    push Not
    exact (or_iff_right fun hleft => hall hleft.1).symm

namespace NodeSubgraphsWitness

/-- A node of the root graph with instance names. Graph 1 is registered as its branch. -/
def rooted (names : List String) : Heap :=
  let h := (LinkCall.runAll [.newOp { opDef := { name := "n", type := "If" }, subgraphInstanceNames := names },
    .newNode 0]).getD .empty
  let h := h.setNode 0 { h.node 0 with ownerGraph := some 0 }
  let h := h.setGraph 0 { name := "root", nodes := [0], directNodesSize := 1, subGraph := [1], namesToSubgraph := [("branch", 1)] }
  h.setGraph 1 { name := "branch", parentGraph := some 0, parentNode := some 0 }

theorem nodes_rooted (names : List String) {x : GraphId} {m : NodeId} (hm : m ∈ ((rooted names).graph x).nodes) : x = 0 := by
  by_contra hne
  simp only [rooted, setGraph_graph, setNode_graph, hne, if_false] at hm
  split at hm
  · cases hm
  · cases hm

theorem found_rooted {names : List String} {name : String} {x : GraphId}
    (hfind : ((rooted names).graph 0).namesToSubgraph.find name = some x) : name = "branch" ∧ x = 1 :=
  Prod.mk.inj (List.mem_singleton.mp (mem_of_find hfind))

theorem acyclic_rooted (names : List String) : ∀ x, ¬ TransGen ((rooted names).Nests 0) x x := by
  have hstep : ∀ x y, (rooted names).Nests 0 x y → x = 0 ∧ y = 1 := by
    rintro x y ⟨m, hm, hy⟩
    obtain ⟨name, -, hfind⟩ := List.mem_filterMap.mp hy
    exact ⟨nodes_rooted names hm, (found_rooted hfind).2⟩
  intro x hcycle
  obtain ⟨y, hy, -⟩ := TransGen.head'_iff.mp hcycle
  obtain ⟨z, -, hz⟩ := TransGen.tail'_iff.mp hcycle
  exact absurd ((hstep _ _ hy).1.symm.trans (hstep _ _ hz).2) (by decide)

end NodeSubgraphsWitness

open NodeSubgraphsWitness

/-- The branch of a node is removed. -/
theorem removesSubgraphs_branch : (rooted ["branch"]).RemovesSubgraphs 0 0 := by
  have hmet : ∀ name, (rooted ["branch"]).MeetsName 0 0 name → name = "branch" := by
    rintro name ⟨a, ha, hr⟩
    obtain rfl : a = "branch" := List.mem_singleton.mp ha
    rcases hr.cases_head with rfl | ⟨b, hstep, -⟩
    · rfl
    · obtain ⟨x, hx, m, hm, -⟩ := child_iff.mp hstep
      exact absurd ((found_rooted hx).2.symm.trans (nodes_rooted _ hm)) (by decide)
  refine (removesSubgraphs_iff rfl ⟨1, rfl⟩ (by decide +kernel) (acyclic_rooted _)).mpr
    (.inl ⟨fun name hname => ?_, ?_, fun x hx => ?_⟩)
  · rw [hmet name hname]
    show _ = _
    decide +kernel
  · intro e he _
    obtain rfl : e = ("branch", 1) := List.mem_singleton.mp he
    exact ⟨"branch", mem_singleton_self _, .refl⟩
  · obtain ⟨name, -, hfind⟩ := below_iff.mp hx
    rw [(found_rooted hfind).2]
    decide +kernel

/-- A node with an empty slot behind its branch: the call fails with the slot of the branch emptied. -/
theorem not_removesSubgraphs : ¬ ∀ (h : Heap) (g root : GraphId) (n : NodeId), (h.node n).ownerGraph = some g →
    (∃ k, findRootGraph h k g = some root) → ((h.graph root).namesToSubgraph.map Prod.fst).Nodup →
      (∀ x, ¬ TransGen (h.Nests root) x x) → h.RemovesSubgraphs root n := by
  intro hclaim
  have hremoves := hclaim (rooted ["branch", ""]) 0 0 0 rfl ⟨1, rfl⟩ (by decide +kernel) (acyclic_rooted _)
  have hincomplete : ¬ ∀ a ∈ ((rooted ["branch", ""]).desc 0).subgraphInstanceNames, Complete (rooted ["branch", ""]) 0 a :=
    fun hall =>
    absurd (hall "" (by decide +kernel) "" .refl) (by unfold Heap.Registered; decide +kernel)
  obtain ⟨-, hhead, -⟩ := (removes_of_incomplete rfl ⟨1, rfl⟩ (acyclic_rooted _) hincomplete).mp hremoves
  exact absurd hhead (by decide +kernel)

end Metadef
