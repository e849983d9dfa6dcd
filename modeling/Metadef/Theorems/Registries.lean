import Metadef.Lib.Registry
import Metadef.Lemmas.Resorts

/-!
# The registries of subgraphs agree

A run of calls on the registries of a graph keeps the list and the map in agreement, and takes out what it is told to, exactly
when each call adds what is not there yet and takes out a graph by the name it is registered under.
-/

namespace Metadef

open Cmd Registry List

/-- The list and the map of a graph hold the same graphs, each once. -/
def Heap.RegistriesAgree (h : Heap) (g : GraphId) : Prop := Agree (h.graph g).subGraph (h.graph g).namesToSubgraph

namespace RegistryCall

/-- The graph a call is told to remove. -/
def removed : RegistryCall → Option GraphId
  | removeSubgraphByOwnName subgraph | removeSubGraph subgraph => subgraph
  | _ => none

/-- What a call should leave: registries that agree, and of a graph it is told to remove nothing, of the others all. -/
structure Leaves (g : GraphId) (c : RegistryCall) (h h' : Heap) : Prop where
  agree : h'.RegistriesAgree g
  removed : ∀ x ∈ c.removed, Removed x (h.graph g).subGraph (h'.graph g).subGraph (h'.graph g).namesToSubgraph

/-- A call that adds a graph not registered yet, under a name that holds none, or removes a graph whose name is the one it is
registered under. -/
def Fits (g : GraphId) (h : Heap) : RegistryCall → Prop
  | addSubgraph name subgraph => ∀ x ∈ subgraph, ComputeGraph.hasParents h x = true →
    (h.graph g).namesToSubgraph.contains name = false → x ∉ (h.graph g).subGraph
  | addSubgraphByOwnName subgraph => ∀ x ∈ subgraph, ComputeGraph.hasParents h x = true →
    (h.graph g).namesToSubgraph.contains (h.graph x).name = false → x ∉ (h.graph g).subGraph
  | addSubGraph subGraph => ∀ x ∈ subGraph,
    x ∉ (h.graph g).subGraph ∧ (h.graph g).namesToSubgraph.contains (h.graph x).name = false
  | removeSubgraph _ => True
  | removeSubgraphByOwnName subgraph | removeSubGraph subgraph => ∀ x ∈ subgraph,
    KeyedBy (h.graph g).namesToSubgraph (h.graph x).name x

instance (g : GraphId) (h : Heap) (c : RegistryCall) : Decidable (c.Fits g h) := by
  cases c <;> simp only [Fits] <;> infer_instance

end RegistryCall

namespace RegistryAux

open RegistryCall

variable {h h' : Heap} {g : GraphId} {c : RegistryCall}

/-! ## The lists a function leaves -/

/-- What a function makes of the two registries. -/
def Makes (g : GraphId) (h' : Heap) (l : List GraphId) (m : OrderedMap String GraphId) : Prop :=
  (h'.graph g).subGraph = l ∧ (h'.graph g).namesToSubgraph = m

variable {name : String} {x : GraphId} {ok : Bool} {u : Unit}

theorem addSubgraph_makes (hr : ComputeGraph.addSubgraph g name (some x) h = some (ok, h')) :
    (ComputeGraph.hasParents h x = true ∧ (h.graph g).namesToSubgraph.contains name = false ∧
        Makes g h' ((h.graph g).subGraph ++ [x]) ((h.graph g).namesToSubgraph.assign name x)) ∨
      (¬ (ComputeGraph.hasParents h x = true ∧ (h.graph g).namesToSubgraph.contains name = false) ∧ h' = h) := by
  simp only [ComputeGraph.addSubgraph, get_bind_apply] at hr
  cases hp : ComputeGraph.hasParents h x with
  | false =>
    obtain ⟨-, rfl⟩ : false = ok ∧ h = h' := by simpa [hp] using hr
    exact .inr ⟨by simp, rfl⟩
  | true =>
    cases hk : (h.graph g).namesToSubgraph.contains name with
    | true =>
      obtain ⟨-, rfl⟩ : false = ok ∧ h = h' := by simpa [hp, hk] using hr
      exact .inr ⟨by simp, rfl⟩
    | false =>
      simp only [hp, hk, Bool.not_true, Bool.false_eq_true, if_false, ComputeGraph.edit, modify_bind_apply, pure_apply,
        Option.some.injEq, Prod.mk.injEq] at hr
      obtain ⟨-, rfl⟩ := hr
      exact .inl ⟨rfl, rfl, by simp [Makes]⟩

theorem addSubGraph_makes {r : Option GraphId} (hr : ComputeGraph.addSubGraph g (some x) h = some (r, h')) :
    Makes g h' ((h.graph g).subGraph ++ [x]) ((h.graph g).namesToSubgraph.assign (h.graph x).name x) := by
  simp only [ComputeGraph.addSubGraph, ComputeGraph.edit, modify_bind_apply, get_bind_apply, pure_apply, Option.some.injEq,
    Prod.mk.injEq] at hr
  obtain ⟨-, rfl⟩ := hr
  -- the name of the graph is read after it is listed
  have hname : ((h.setGraph g { h.graph g with subGraph := (h.graph g).subGraph ++ [x] }).graph x).name = (h.graph x).name := by
    rw [Heap.setGraph_graph]
    split
    · rename_i hx
      rw [hx]
    · rfl
  refine ⟨by simp, ?_⟩
  rw [← hname]
  simp

theorem removeSubGraph_makes (hr : ComputeGraph.removeSubGraph g (some x) h = some (ok, h')) :
    Makes g h' ((h.graph g).subGraph.erase x) ((h.graph g).namesToSubgraph.erase (h.graph x).name) := by
  simp only [ComputeGraph.removeSubGraph, ComputeGraph.edit, modify_bind_apply, get_bind_apply, pure_apply,
    Option.some.injEq, Prod.mk.injEq] at hr
  obtain ⟨-, rfl⟩ := hr
  simp [Makes]

theorem removeSubgraph_makes (hr : ComputeGraph.removeSubgraph g name h = some (u, h')) :
    (∃ x, (h.graph g).namesToSubgraph.find name = some x ∧
        Makes g h' ((h.graph g).subGraph.erase x) ((h.graph g).namesToSubgraph.erase name)) ∨
      ((h.graph g).namesToSubgraph.find name = none ∧ h' = h) := by
  simp only [ComputeGraph.removeSubgraph, get_bind_apply] at hr
  cases hf : (h.graph g).namesToSubgraph.find name with
  | none =>
    obtain rfl : h = h' := by simpa [hf] using hr
    exact .inr ⟨rfl, rfl⟩
  | some x =>
    simp only [hf, ComputeGraph.edit, modify_bind_apply, modify_apply, Option.some.injEq, Prod.mk.injEq] at hr
    obtain ⟨-, rfl⟩ := hr
    exact .inl ⟨x, rfl, by simp [Makes]⟩

/-! ## Calls -/

theorem leaves_self (ha : h.RegistriesAgree g) (hc : c.removed = none) : c.Leaves g h h :=
  ⟨ha, by simp [hc]⟩

/-- Adding a graph under a name leaves what it should when the graph is not registered. -/
theorem added_iff (ha : h.RegistriesAgree g) (hc : c.removed = none)
    (hr : ComputeGraph.addSubgraph g name (some x) h = some (ok, h')) :
    c.Leaves g h h' ↔ (ComputeGraph.hasParents h x = true → (h.graph g).namesToSubgraph.contains name = false →
      x ∉ (h.graph g).subGraph) := by
  rcases addSubgraph_makes hr with ⟨hp, hk, hl, hm⟩ | ⟨hno, rfl⟩
  · have hiff := ha.assign_iff (k := name) (x := x)
    constructor
    · intro hleft _ _
      have hagree := hleft.agree
      unfold Heap.RegistriesAgree at hagree
      rw [hl, hm] at hagree
      exact (hiff.mp hagree).1
    · intro hnot
      refine ⟨?_, by simp [hc]⟩
      unfold Heap.RegistriesAgree
      rw [hl, hm]
      exact hiff.mpr ⟨hnot hp hk, hk⟩
  · exact ⟨fun _ hp hk => absurd ⟨hp, hk⟩ hno, fun _ => leaves_self ha hc⟩

/-- What is told to remove a graph leaves what it should when it takes its name and it out. -/
theorem removed_iff (ha : h.RegistriesAgree g) (hc : c.removed = some x) {k : String}
    (hl : Makes g h' ((h.graph g).subGraph.erase x) ((h.graph g).namesToSubgraph.erase k)) :
    c.Leaves g h h' ↔ KeyedBy (h.graph g).namesToSubgraph k x := by
  obtain ⟨hlist, hmap⟩ := hl
  rw [← ha.erase_iff (k := k) (x := x), ← hlist, ← hmap]
  exact ⟨fun hleft => ⟨hleft.agree, hleft.removed x hc⟩,
    fun hboth => ⟨hboth.1, fun y hy => Option.some.inj (hc.symm.trans hy) ▸ hboth.2⟩⟩

/-- Where the registries agree, a call leaves what it should exactly when it fits. -/
theorem leaves_iff (ha : h.RegistriesAgree g) (hr : c.run g h = some (u, h')) : c.Leaves g h h' ↔ c.Fits g h := by
  -- what a call returns is dropped
  have hdrop : ∀ {α : Type} {x : Cmd Heap α}, (do let _ ← x; pure ()) h = some (u, h') → ∃ r, x h = some (r, h') := by
    intro α x hx
    obtain ⟨r, t, ht, hrest⟩ := bind_eq_some.mp hx
    obtain ⟨-, rfl⟩ := of_return hrest
    exact ⟨r, ht⟩
  cases c with
  | addSubgraph name subgraph =>
    obtain ⟨ok, hr⟩ := hdrop hr
    cases subgraph with
    | none =>
      obtain ⟨-, rfl⟩ := of_return hr
      exact iff_of_true (leaves_self ha rfl) (by simp [Fits])
    | some x => simpa [Fits] using added_iff ha rfl hr
  | addSubgraphByOwnName subgraph =>
    obtain ⟨ok, hr⟩ := hdrop hr
    cases subgraph with
    | none =>
      obtain ⟨-, rfl⟩ := of_return hr
      exact iff_of_true (leaves_self ha rfl) (by simp [Fits])
    | some x => simpa [Fits] using added_iff ha rfl hr
  | addSubGraph subGraph =>
    obtain ⟨r, hr⟩ := hdrop hr
    cases subGraph with
    | none =>
      obtain ⟨-, rfl⟩ := of_return hr
      exact iff_of_true (leaves_self ha rfl) (by simp [Fits])
    | some x =>
      obtain ⟨hl, hm⟩ := addSubGraph_makes hr
      have hiff := ha.assign_iff (k := (h.graph x).name) (x := x)
      rw [← hl, ← hm] at hiff
      simpa [Fits] using Iff.trans ⟨Leaves.agree, fun hagree => ⟨hagree, by simp [removed]⟩⟩ hiff
  | removeSubgraph name =>
    refine iff_of_true ⟨?_, by simp [removed]⟩ trivial
    unfold Heap.RegistriesAgree
    rcases removeSubgraph_makes hr with ⟨x, hf, hl, hm⟩ | ⟨-, rfl⟩
    · rw [hl, hm]
      exact ha.erase ((find_eq_some ha).mp hf)
    · exact ha
  | removeSubgraphByOwnName subgraph =>
    cases subgraph with
    | none =>
      obtain rfl : h = h' := by simpa [RegistryCall.run, ComputeGraph.removeSubgraphByOwnName] using hr
      exact iff_of_true (leaves_self ha rfl) (by simp [Fits])
    | some x =>
      have hfits : (removeSubgraphByOwnName (some x)).Fits g h ↔ KeyedBy (h.graph g).namesToSubgraph (h.graph x).name x := by
        simp [Fits]
      rw [hfits]
      rcases removeSubgraph_makes hr with ⟨y, hf, hl, hm⟩ | ⟨hf, rfl⟩
      · rw [← ha.remove_found hf, ← hl, ← hm]
        refine ⟨fun hleft => hleft.removed x rfl, fun hr => ⟨?_, fun z hz => Option.some.inj hz ▸ hr⟩⟩
        unfold Heap.RegistriesAgree
        rw [hl, hm]
        exact ha.erase ((find_eq_some ha).mp hf)
      · rw [← ha.remove_missing hf]
        exact ⟨fun hleft => hleft.removed x rfl, fun hr => ⟨ha, fun z hz => Option.some.inj hz ▸ hr⟩⟩
  | removeSubGraph subGraph =>
    obtain ⟨ok, hr⟩ := hdrop hr
    cases subGraph with
    | none =>
      obtain ⟨-, rfl⟩ := of_return hr
      exact iff_of_true (leaves_self ha rfl) (by simp [Fits])
    | some x => simpa [Fits] using removed_iff ha rfl (removeSubGraph_makes hr)

theorem addSubgraph_returns (g : GraphId) (name : String) (subgraph : Option GraphId) (h : Heap) :
    ∃ ok h', ComputeGraph.addSubgraph g name subgraph h = some (ok, h') := by
  cases subgraph with
  | none => exact ⟨false, h, rfl⟩
  | some x =>
    simp only [ComputeGraph.addSubgraph, get_bind_apply]
    split
    · exact ⟨false, h, rfl⟩
    · split
      · exact ⟨false, h, rfl⟩
      · exact ⟨true, _, rfl⟩

theorem removeSubgraph_returns (g : GraphId) (name : String) (h : Heap) :
    ∃ h', ComputeGraph.removeSubgraph g name h = some ((), h') := by
  simp only [ComputeGraph.removeSubgraph, get_bind_apply]
  cases (h.graph g).namesToSubgraph.find name with
  | none => exact ⟨h, rfl⟩
  | some x => exact ⟨_, rfl⟩

/-- Every call returns. -/
theorem step_returns (g : GraphId) (h : Heap) (c : RegistryCall) : ∃ h', c.step g h = some h' := by
  have hdrop : ∀ {α : Type} {x : Cmd Heap α}, (∃ r h', x h = some (r, h')) →
      ∃ h', ((do let _ ← x; pure ()) h).map Prod.snd = some (h' : Heap) := by
    rintro α x ⟨r, h', hx⟩
    exact ⟨h', by rw [bind_of_eq hx]; rfl⟩
  have hunit : ∀ {x : Cmd Heap Unit}, (∃ h', x h = some ((), h')) → ∃ h', (x h).map Prod.snd = some h' := by
    rintro x ⟨h', hx⟩
    exact ⟨h', by rw [hx]; rfl⟩
  unfold RegistryCall.step
  cases c with
  | addSubgraph name subgraph => exact hdrop (addSubgraph_returns g name subgraph h)
  | addSubgraphByOwnName subgraph =>
    cases subgraph with
    | none => exact ⟨h, rfl⟩
    | some x => exact hdrop (addSubgraph_returns g (h.graph x).name (some x) h)
  | addSubGraph subGraph => cases subGraph <;> exact ⟨_, rfl⟩
  | removeSubgraph name => exact hunit (removeSubgraph_returns g name h)
  | removeSubgraphByOwnName subgraph =>
    cases subgraph with
    | none => exact ⟨h, rfl⟩
    | some x => exact hunit (removeSubgraph_returns g (h.graph x).name h)
  | removeSubGraph subGraph => cases subGraph <;> exact ⟨_, rfl⟩

end RegistryAux

open RegistryAux

/-- From a graph without subgraphs, every call of a run leaves registries that agree, and takes out the graph it is told to and
no other, exactly when every call fits. -/
theorem registries_agree_iff (g : GraphId) (calls : List RegistryCall) (h : Heap)
    (hfresh : (h.graph g).subGraph = [] ∧ (h.graph g).namesToSubgraph = []) :
    (∃ h', Run.exec (RegistryCall.step g) calls h = some h') ∧
      (Run.Each (RegistryCall.step g) (fun t c => ∀ t', c.step g t = some t' → c.Leaves g t t') calls h ↔
        Run.Each (RegistryCall.step g) (RegistryCall.Fits g) calls h) := by
  have hstart : h.RegistriesAgree g := by
    unfold Heap.RegistriesAgree
    rw [hfresh.1, hfresh.2]
    exact agree_nil
  refine ⟨Run.exec_returns (step_returns g) calls h, Run.each_congr (P := fun t => t.RegistriesAgree g) ?_ ?_ calls h hstart⟩
  · intro t c ha
    obtain ⟨t', ht'⟩ := step_returns g t c
    obtain ⟨⟨u, s⟩, hr, rfl⟩ := Option.map_eq_some_iff.mp ht'
    rw [← leaves_iff ha hr]
    exact ⟨fun hall => hall s ht', fun hleft s' hs' => Option.some.inj (ht'.symm.trans hs') ▸ hleft⟩
  · exact fun t c t' _ hall ht' => (hall t' ht').agree

namespace RegistryWitness

/-- Graph 0 has a node that is the parent of graph 1, which is named "branch". -/
def parented : Heap :=
  { node := fun _ => { op := 0, ownerGraph := some 0, inControlAnchor := 0, outControlAnchor := 1 }
    graph := fun g => if g = 1 then { name := "branch", parentGraph := some 0, parentNode := some 0 } else {} }

/-- The graph is added under its name, and taken out. -/
theorem registries_agree_iff_parented :
    Run.Each (RegistryCall.step 0) (fun t c => ∀ t', c.step 0 t = some t' → c.Leaves 0 t t')
      [.addSubgraphByOwnName (some 1), .removeSubgraphByOwnName (some 1)] parented :=
  (registries_agree_iff 0 [.addSubgraphByOwnName (some 1), .removeSubgraphByOwnName (some 1)] parented ⟨rfl, rfl⟩).2.mpr
    (by decide +kernel)

/-- A graph added twice is listed twice. -/
theorem registries_agree_false :
    ¬ ∀ (g : GraphId) (calls : List RegistryCall) (h : Heap), (h.graph g).subGraph = [] → (h.graph g).namesToSubgraph = [] →
      Run.Each (RegistryCall.step g) (fun t c => ∀ t', c.step g t = some t' → c.Leaves g t t') calls h := by
  intro hall
  obtain ⟨-, hrest⟩ := hall 0 [.addSubGraph (some 1), .addSubGraph (some 1)] parented rfl rfl
  have hleft := (hrest _ rfl).1 _ rfl
  exact absurd hleft.agree.once (by decide +kernel)

end RegistryWitness

/-!
## Sorting keeps the registered subgraphs

After a sort of a graph and its subgraphs the list holds the graphs it held, unless as many subgraphs were met as are registered
and they are others.
-/

open Heap ComputeGraph

/-- The subgraphs met in the walk over nodes, as often as they are met. -/
def Heap.met (h : Heap) (g : GraphId) (nodes : List NodeId) : List GraphId := nodes.flatMap (h.resolved g)

/-- Where the walk from a graph on meets as many subgraphs as are registered, it meets each of them once. -/
def Heap.MeetsRegistered (h : Heap) (g : GraphId) : Prop :=
  ∀ nodes, h.NodesInOrder g nodes → (h.met g nodes).length = (h.graph g).subGraph.length →
    (h.met g nodes).Perm (h.graph g).subGraph

/-- The list holds the graphs it held, and so those of the map. -/
def Heap.RegisteredKept (h h' : Heap) (g : GraphId) : Prop :=
  (h'.graph g).subGraph.Perm (h.graph g).subGraph ∧ h'.RegistriesAgree g

namespace RegisteredAux

open ResortAux NodeWalks

variable {h t h' : Heap} {g : GraphId}

theorem registeredKept_of_reordered (ha : h.RegistriesAgree g) (ho : Reordered h t) : h.RegisteredKept t g := by
  obtain ⟨hnames, hsub, -⟩ := ho.names g
  refine ⟨hsub ▸ .refl _, ?_⟩
  unfold RegistriesAgree
  rw [hnames, hsub]
  exact ha

/-- Replacing the list keeps the graphs registered when it holds the same. -/
theorem registeredKept_replace (ha : h.RegistriesAgree g) (ho : Reordered h t) (l : List GraphId) :
    h.RegisteredKept (t.setGraph g { t.graph g with subGraph := l }) g ↔ l.Perm (h.graph g).subGraph := by
  have hlist : ((t.setGraph g { t.graph g with subGraph := l }).graph g).subGraph = l := by simp
  have hmap : ((t.setGraph g { t.graph g with subGraph := l }).graph g).namesToSubgraph = (h.graph g).namesToSubgraph := by
    simpa using (ho.names g).1
  unfold RegisteredKept RegistriesAgree
  rw [hlist, hmap]
  exact ⟨fun hk => hk.1, fun hl => ⟨hl, hl.nodup_iff.mpr ha.once, ha.keys, ha.perm.trans hl.symm⟩⟩

/-- The subgraphs collected are those the walk meets before the sorts. -/
theorem collected_perm (hroot : (h.graph g).parentGraph = none) (ho : Reordered h t) {fuel : Nat} {nodes : List NodeId}
    {subgraphs : List GraphId} (hw : allGraphNodes t fuel g = some (nodes, subgraphs)) :
    ∃ out, h.NodesInOrder g out ∧ subgraphs.Perm (h.met g out) := by
  obtain ⟨hnodes, rfl⟩ := of_allGraphNodes ((ho.names g).2.2.1.trans hroot) hw
  obtain ⟨out, hout, hperm⟩ := ho.symm.nodesInOrder hnodes
  refine ⟨out, hout, ?_⟩
  calc (nodes.flatMap fun n => (t.resolved g n).reverse).Perm (nodes.flatMap (h.resolved g)) :=
        List.Perm.flatMap_left _ fun n _ => by
          rw [ho.resolved]
          exact reverse_perm _
    _ |>.Perm (out.flatMap (h.resolved g)) := hperm.symm.flatMap_right _

end RegisteredAux

open ResortAux RegisteredAux

/-- Sorting a graph without a parent, and its subgraphs, keeps the registered subgraphs exactly when it fails, or the walk over
the nodes meets another number of subgraphs or just those registered. -/
theorem registered_kept_iff (h h' : Heap) (g : GraphId) (fuel : Nat) (runMode : Option Int) (ok : Bool)
    (hroot : (h.graph g).parentGraph = none) (hagree : h.RegistriesAgree g)
    (hcount : ∀ x ∈ g :: (h.graph g).subGraph, h.Countable x)
    (hr : topologicalSorting fuel runMode g h = some (ok, h')) :
    h.RegisteredKept h' g ↔ (ok = true → h.MeetsRegistered g) := by
  obtain ⟨ok₁, t₁, h₁, hcases⟩ := topologicalSorting_cases hr
  have ho₁ : Reordered h t₁ := reordered_sort (hcount g mem_cons_self) h₁
  rcases hcases with ⟨-, rfl, rfl⟩ | ⟨-, rfl, hempty, rfl⟩ | ⟨-, ok₂, t₂, h₂, hcases⟩
  · exact iff_of_true (registeredKept_of_reordered hagree ho₁) nofun
  · refine iff_of_true (registeredKept_of_reordered hagree ho₁) fun _ nodes _ hlen => ?_
    rw [(ho₁.names g).2.1] at hempty
    rw [hempty] at hlen ⊢
    rw [eq_nil_of_length_eq_zero hlen]
  · rw [(ho₁.names g).2.1] at h₂
    have ho₂ : Reordered h t₂ := reordered_eachOk (fun x hx => hcount x (mem_cons_of_mem g hx)) ho₁ h₂
    rcases hcases with ⟨-, rfl, rfl⟩ | ⟨-, rfl, nodes, subgraphs, hw, rfl⟩
    · exact iff_of_true (registeredKept_of_reordered hagree ho₂) nofun
    · have ho₃ : Reordered h (setIds nodes 0 t₂) := ho₂.trans (reordered_setIds nodes 0 t₂)
      obtain ⟨out, hout, hperm⟩ := collected_perm hroot ho₂ hw
      have hlen : ((setIds nodes 0 t₂).graph g).subGraph.length = (h.graph g).subGraph.length := by rw [(ho₃.names g).2.1]
      -- there is one preorder
      have hmeets : h.MeetsRegistered g ↔
          (subgraphs.length = (h.graph g).subGraph.length → subgraphs.Perm (h.graph g).subGraph) := by
        constructor
        · intro hm hl
          exact hperm.trans (hm out hout (hperm.length_eq ▸ hl))
        · intro hm out' hout' hl
          obtain rfl := hout.unique hout'
          exact hperm.symm.trans (hm (hperm.length_eq ▸ hl))
      rw [hmeets]
      simp only [numbered, hlen, true_imp_iff, ne_eq, ite_not]
      split
      · rename_i heq
        rw [registeredKept_replace hagree ho₃]
        exact ⟨fun hl _ => hl, fun hl => hl heq.symm⟩
      · rename_i hne
        exact iff_of_true (registeredKept_of_reordered hagree ho₃) fun heq => absurd heq.symm hne

namespace RegisteredWitness

/-- An operator with subgraphs of names. -/
def calling (names : List String) : OpDesc := { subgraphInstanceNames := names }

/-- Graph 0 has two nodes with subgraphs of names; graphs 1 and 2 are registered in it as "a" and "b". -/
def calls (first second : List String) : Heap :=
  let h := GraphSteps.addAll 0 ((LinkCall.runAll [.newOp (calling first), .newNode 0, .newOp (calling second),
    .newNode 1]).getD .empty) [0, 1]
  h.setGraph 0 { h.graph 0 with subGraph := [1, 2], namesToSubgraph := [("a", 1), ("b", 2)] }

theorem agree_calls (first second : List String) : (calls first second).RegistriesAgree 0 := by
  change Registry.Agree [1, 2] [("a", 1), ("b", 2)]
  exact ⟨by decide, by decide, by decide⟩

theorem registered_kept_iff_each :
    ∃ h', topologicalSorting 4 none 0 (calls ["a"] ["b"]) = some (true, h') ∧
      ((calls ["a"] ["b"]).RegisteredKept h' 0 ↔ (true = true → (calls ["a"] ["b"]).MeetsRegistered 0)) :=
  have ⟨h', hr, _⟩ : ∃ h', topologicalSorting 4 none 0 (calls ["a"] ["b"]) = some (true, h') ∧ True :=
    Cmd.exists_of_decide (by decide +kernel)
  ⟨h', hr, registered_kept_iff (calls ["a"] ["b"]) h' 0 4 none true rfl (agree_calls _ _) (by decide +kernel) hr⟩

/-- Where both nodes have one subgraph, it displaces the other. -/
theorem registered_kept_false :
    ¬ ∀ (h h' : Heap) (g : GraphId) (fuel : Nat) (runMode : Option Int) (ok : Bool), (h.graph g).parentGraph = none →
      h.RegistriesAgree g → (∀ x ∈ g :: (h.graph g).subGraph, h.Countable x) →
      topologicalSorting fuel runMode g h = some (ok, h') → h.RegisteredKept h' g := by
  intro hall
  obtain ⟨h', hr, hnot⟩ : ∃ h', topologicalSorting 4 none 0 (calls ["a"] ["a"]) = some (true, h') ∧
      ¬(h'.graph 0).subGraph.Perm ((calls ["a"] ["a"]).graph 0).subGraph := Cmd.exists_of_decide (by decide +kernel)
  exact hnot (hall (calls ["a"] ["a"]) h' 0 4 none true rfl (agree_calls _ _) (by decide +kernel) hr).1

end RegisteredWitness

end Metadef
