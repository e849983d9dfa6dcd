import Metadef.Lemmas.Rebuilding
import Metadef.Lib.PartialMaps

/-!
# When loading ends

Loading a model works off a queue of graphs that is refilled without a mark. It ends unless a graph reached from the root is nested
below itself while nothing on the way is refused. Where it succeeds the parents it has set form a forest.
-/

namespace Metadef

open List

open Relation

/-- A graph has one parent node, which is of its parent graph and holds its name. -/
def Heap.HasOneParent (h : Heap) (g : GraphId) : Prop :=
  ∃! n, (h.graph g).parentNode = some n ∧ ∃ p, (h.graph g).parentGraph = some p ∧ n ∈ (h.graph p).nodes ∧
    (h.graph g).name ∈ (h.desc n).subgraphInstanceNames

/-- The parents of the graphs made since a heap are a forest: none is its own ancestor, and each that is registered at the root or
has a parent has one parent node, which holds its name. -/
structure Heap.Forest (h h' : Heap) (root : GraphId) : Prop where
  acyclic : ∀ g, h.graphCount ≤ g → g < h'.graphCount →
    ¬ TransGen (fun x y => (h'.graph x).parentGraph = some y) g g
  registered : ∀ g ∈ (h'.graph root).subGraph, h'.HasOneParent g
  parent : ∀ g, h.graphCount ≤ g → g < h'.graphCount →
    ((h'.graph g).parentGraph = none ∧ (h'.graph g).parentNode = none) ∨ h'.HasOneParent g

namespace ModelSerializeImp

/-- Loading a model ends, and where it succeeds the parents it has set are a forest. -/
structure LoadsForest (h : Heap) (d : ModelDef) : Prop where
  ends : ∃ fuel, (unserializeModel fuel d h).isSome
  forest : ∀ fuel g h', unserializeModel fuel d h = some ((true, some g), h') → h.Forest h' g

/-- No graph reached from the root is nested below itself, where no graph behind the root's asks for what it has not got and no
name asked for by a graph reached leads to no graph. -/
def NestingEnds (d : ModelDef) : Prop :=
  ∀ root l, d.graph = root :: l → l.all met = true → (∀ x, Worklist.Reaches (kids l) root x → kids l x ≠ none) →
    ∀ x, Worklist.Reaches (kids l) root x → ¬ TransGen (fun x y => Worklist.Child (kids l) y x) x x

end ModelSerializeImp

namespace LoadEndsAux

open ModelSerializeImp RebuildingAux LoadingAux PartialMaps Worklist

variable {b h t : Heap} {first root g p x y : GraphId} {n : NodeId} {l : List GraphDef} {d d' dg dp : GraphDef}

/-! ## Ending -/

theorem mem_of_child (hc : Child (kids l) d' d) : d' ∈ l := by
  obtain ⟨found, hk, hd⟩ := hc
  obtain ⟨s, -, hs⟩ := (mem_mapM hk d').mp hd
  exact (name_of_lastNamed hs).1

theorem acc_iff : Acc (Child (kids l)) d ↔ ∀ x, Reaches (kids l) d x → ¬ TransGen (fun x y => Child (kids l) y x) x x :=
  acc_iff_no_cycle l fun _ _ hc => mem_of_child hc

/-- Loading ends as its worklist does. -/
theorem ends_iff (h : Heap) (d : ModelDef) : (∃ fuel, (unserializeModel fuel d h).isSome) ↔ NestingEnds d := by
  obtain ⟨graph⟩ := d
  cases graph with
  | nil => exact ⟨fun _ root l hd => (by cases hd), fun _ => ⟨0, rfl⟩⟩
  | cons d l =>
    have hsome : ∀ fuel, (unserializeModel fuel { graph := d :: l } h).isSome =
        (if l.all met then (drain (kids l) fuel [d]).map (· && met d) else some false).isSome := by
      intro fuel
      rw [← (unserializeModel_spec fuel d l h).1, Option.isSome_map]
    simp only [hsome]
    constructor
    · rintro ⟨fuel, hfuel⟩ d' l' hd hmet hkids
      obtain ⟨rfl, rfl⟩ : d = d' ∧ l = l' := by simpa using hd
      rw [if_pos hmet, Option.isSome_map] at hfuel
      obtain ⟨r, hr⟩ := Option.isSome_iff_exists.mp hfuel
      rcases drain_returns_iff.mp ⟨fuel, r, hr⟩ with ⟨z, hz, y, hy, hfail⟩ | hall
      · obtain rfl := mem_singleton.mp hz
        exact absurd hfail (hkids y hy)
      · exact acc_iff.mp (hall d mem_cons_self)
    · intro hends
      by_cases hmet : l.all met = true
      · have hdrain : ∃ fuel r, drain (kids l) fuel [d] = some r := by
          refine drain_returns_iff.mpr ?_
          by_cases hkids : ∀ x, Reaches (kids l) d x → kids l x ≠ none
          · refine .inr fun z hz => ?_
            obtain rfl := mem_singleton.mp hz
            exact acc_iff.mpr (hends z l rfl hmet hkids)
          · simp only [not_forall, not_not] at hkids
            obtain ⟨y, hy, hfail⟩ := hkids
            exact .inl ⟨d, mem_cons_self, y, hy, hfail⟩
        obtain ⟨fuel, r, hr⟩ := hdrain
        exact ⟨fuel, by simp [hmet, hr]⟩
      · exact ⟨0, by simp [hmet]⟩

/-! ## The forest -/

/-- The names a graph asks for are those its nodes hold, whichever message it was read from. -/
theorem namesAsked_eq (hread : b.GraphRead g d) :
    namesAsked d = (b.graph g).nodes.flatMap fun n => (b.desc n).subgraphInstanceNames := by
  have hnodes := hread.nodes
  unfold namesAsked
  generalize (b.graph g).nodes = nodes, d.op = ops at hnodes
  induction hnodes with
  | nil => rfl
  | cons hn _ ih => rw [flatMap_cons, flatMap_cons, hn.desc, ih]

theorem child_of_metFrom (hall : ∀ x, Reaches (kids l) d x → kids l x ≠ none) (hm : MetFrom b first l d x p n) :
    ∃ dx, lastNamed GraphDef.name l (b.graph x).name = some dx ∧ b.GraphRead x dx ∧ Reaches (kids l) d dx ∧
      ∀ dy, b.GraphRead p dy → Child (kids l) dx dy := by
  obtain ⟨dp, dx, hdp, hdx, hreach, hasked, hlast⟩ := hm.nested
  obtain ⟨found, hk⟩ := Option.ne_none_iff_exists'.mp (hall dp hreach)
  have hin : dx ∈ found := (mem_mapM hk dx).mpr ⟨dx.name, hasked, hlast⟩
  refine ⟨dx, by rw [hdx.name, hlast], hdx, hreach.tail ⟨found, hk, hin⟩, fun dy hdy => ⟨found, ?_, hin⟩⟩
  unfold kids at hk ⊢
  rw [namesAsked_eq hdy, ← namesAsked_eq hdp, hk]

/-- Where a graph is an ancestor of another, its message leads to that of the other. -/
theorem nested_of_ancestor (hr : Rebuilt b first root l d t) (hall : ∀ x, Reaches (kids l) d x → kids l x ≠ none)
    (hxy : TransGen (fun x y => (t.graph x).parentGraph = some y) x y) :
    first ≤ x → x < t.graphCount → ∃ dx, lastNamed GraphDef.name l (b.graph x).name = some dx ∧ b.GraphRead x dx ∧
      Reaches (kids l) d dx ∧ ∀ dy, b.GraphRead y dy → TransGen (fun x y => Child (kids l) y x) dy dx := by
  have hstep : ∀ {x z}, (t.graph x).parentGraph = some z → first ≤ x → x < t.graphCount →
      ∃ n, MetFrom b first l d x z n := by
    intro x z hxz hx hlt
    rcases hr.parents x hx hlt with ⟨hnone, -⟩ | ⟨p, n, hp, -, hm⟩
    · rw [hnone] at hxz
      cases hxz
    · obtain rfl : p = z := Option.some.inj (hp.symm.trans hxz)
      exact ⟨n, hm⟩
  induction hxy using TransGen.head_induction_on with
  | single hxz =>
    intro hx hlt
    obtain ⟨n, hm⟩ := hstep hxz hx hlt
    obtain ⟨dx, hlast, hdx, hreach, hchild⟩ := child_of_metFrom hall hm
    exact ⟨dx, hlast, hdx, hreach, fun dy hdy => .single (hchild dy hdy)⟩
  | head hxz _ ih =>
    intro hx hlt
    obtain ⟨n, hm⟩ := hstep hxz hx hlt
    obtain ⟨dx, hlast, hdx, hreach, hchild⟩ := child_of_metFrom hall hm
    obtain ⟨dp, -, hdp, -⟩ := hm.nested
    obtain ⟨dz, -, hdz, -, hbelow⟩ := ih hm.made (by rw [hr.renested.graphCount]; exact hdp.made)
    exact ⟨dx, hlast, hdx, hreach, fun dy hdy => (hbelow dy hdy).tail (hchild dz hdz)⟩

theorem hasOneParent_of_metFrom (hr : Rebuilt b first root l d t) (hgraph : (t.graph g).parentGraph = some p)
    (hnode : (t.graph g).parentNode = some n) (hm : MetFrom b first l d g p n) : t.HasOneParent g := by
  refine ⟨n, ⟨hnode, p, hgraph, ?_, ?_⟩, fun m hm => Option.some.inj (hm.1.symm.trans hnode)⟩
  · rw [hr.renested.nodes]
    exact hm.listed
  · rw [hr.renested.name, Heap.desc, hr.renested.op, hr.renested.node]
    exact hm.named

/-- The parents set are a forest where every name asked for by what was reached leads to a graph and nothing is nested below
itself. -/
theorem forest_of_rebuilt (hr : Rebuilt b h.graphCount root l d t) (hall : ∀ x, Reaches (kids l) d x → kids l x ≠ none)
    (hacc : Acc (Child (kids l)) d) : h.Forest t root := by
  have hparents : ∀ g, h.graphCount ≤ g → g < t.graphCount →
      ((t.graph g).parentGraph = none ∧ (t.graph g).parentNode = none) ∨ t.HasOneParent g := by
    intro g hg hlt
    rcases hr.parents g hg hlt with hnone | ⟨p, n, hgraph, hnode, hm⟩
    · exact .inl hnone
    · exact .inr (hasOneParent_of_metFrom hr hgraph hnode hm)
  refine ⟨fun g hg hlt hcycle => ?_, fun g hg => ?_, hparents⟩
  · obtain ⟨dx, -, hdx, hreach, hbelow⟩ := nested_of_ancestor hr hall hcycle hg hlt
    exact acc_iff.mp hacc dx hreach (hbelow dx hdx)
  · obtain ⟨hfirst, hlt, hsome⟩ := hr.registered g hg
    rcases hparents g hfirst hlt with ⟨hnone, -⟩ | hone
    · rw [hnone] at hsome
      cases hsome
    · exact hone

theorem forest_of_success {fuel : Nat} {m : ModelDef} (hr : unserializeModel fuel m h = some ((true, some g), t)) :
    h.Forest t g := by
  obtain ⟨graph⟩ := m
  cases graph with
  | nil => simp [unserializeModel] at hr
  | cons d l =>
    obtain ⟨hstatus, hafter⟩ := unserializeModel_spec fuel d l h
    obtain ⟨hg, ⟨b, hb⟩, -⟩ := hafter _ t hr
    obtain rfl := Option.some.inj hg
    rw [hr] at hstatus
    split at hstatus
    · obtain ⟨ok, hdrain, hok⟩ := Option.map_eq_some_iff.mp hstatus.symm
      have htrue : ok = true := by
        cases ok
        · cases hok
        · rfl
      rw [htrue] at hdrain
      obtain ⟨hacc, hall⟩ := of_drain_true hdrain d mem_cons_self
      exact forest_of_rebuilt hb hall hacc
    · cases hstatus

end LoadEndsAux

open LoadEndsAux

open ModelSerializeImp

/-- Loading a model ends with a forest of parents exactly when its nesting ends. -/
theorem loadsForest_iff_nestingEnds (h : Heap) (d : ModelDef) : LoadsForest h d ↔ NestingEnds d :=
  ⟨fun hl => (ends_iff h d).mp hl.ends,
    fun hn => ⟨(ends_iff h d).mpr hn, fun _ _ _ hr => forest_of_success hr⟩⟩

namespace LoadEndsWitness

/-- An operator of a name that runs the graph of another name. -/
def runner (name subgraph : String) : OpDef := { name, subgraphName := [subgraph] }

/-- A root that runs a graph that runs itself. -/
def selfNested : ModelDef := { graph := [{ name := "root", op := [runner "a" "s"] }, { name := "s", op := [runner "b" "s"] }] }

/-- Loading a model whose subgraph runs itself never ends. -/
theorem loading_ends_false : ¬ ∀ d : ModelDef, LoadsForest .empty d := by
  intro hall
  have hends := (ends_iff .empty selfNested).mp (hall selfNested).ends
  obtain ⟨root, hroot⟩ : ∃ root : GraphDef, root = { name := "root", op := [runner "a" "s"] } := ⟨_, rfl⟩
  obtain ⟨sub, hsub⟩ : ∃ sub : GraphDef, sub = { name := "s", op := [runner "b" "s"] } := ⟨_, rfl⟩
  have hkids : kids [sub] root = some [sub] ∧ kids [sub] sub = some [sub] := by
    rw [hroot, hsub]
    decide +kernel
  have hmet : [sub].all met = true := by
    rw [hsub]
    decide +kernel
  have hchild : Worklist.Child (kids [sub]) sub sub := ⟨[sub], hkids.2, mem_cons_self⟩
  have hreached : ∀ x, Worklist.Reaches (kids [sub]) root x → x = root ∨ x = sub := by
    intro x hx
    rcases hx.cases_tail with hx | ⟨y, -, hy⟩
    · exact .inl hx
    · exact .inr (mem_singleton.mp (mem_of_child hy))
  refine hends root [sub] (by rw [hroot, hsub]; rfl) hmet (fun x hx => ?_) sub
    (.single ⟨[sub], hkids.1, mem_cons_self⟩) (.single hchild)
  rcases hreached x hx with rfl | rfl
  · simp [hkids.1]
  · simp [hkids.2]

end LoadEndsWitness

end Metadef
