import Mathlib
import Metadef.Theorems.UserOutputs

/-!
# The text of outputs and the outputs stored

`SetOutputs` writes the outputs it stores into a text and hands that to the compute graph. The text of the calls before is not
dropped, the form with indexes writes the place of an index for the index, and the form with names of outputs hands no text over.
-/

namespace Metadef

open List

open UserOutputAux

namespace GraphImpl

/-- An output a call designates: the operator it was asked for by, its node, the index written and the index stored. -/
structure OutputEntry where
  name : String
  node : NodeId
  written : Int
  index : Int
  deriving DecidableEq, Repr

namespace OutputEntry

/-- All outputs of a node. -/
def all (name : String) (node : NodeId) (outSize : Nat) : List OutputEntry :=
  (List.range outSize).map fun i : Nat => ⟨name, node, i, (i : Int).bmod (2 ^ 32)⟩

/-- The outputs at indexes that are in range, the place of each written for it. -/
def listed (name : String) (node : NodeId) (outSize : Nat) (indexs : List Nat) : List OutputEntry :=
  (indexs.zipIdx.filter fun e => decide (e.1 < outSize)).map fun e => ⟨name, node, e.2, (e.1 : Int).bmod (2 ^ 32)⟩

def ofIndexed (h : Heap) (g : GraphId) (item : String × List Nat) : List OutputEntry :=
  match ComputeGraph.findNode h g item.1 with
  | none => []
  | some node =>
    if item.2 = [] then all item.1 node (h.desc node).getOutputsSize
    else listed item.1 node (h.desc node).getOutputsSize item.2

def ofNamed (h : Heap) (g : GraphId) (item : String × String) : List OutputEntry :=
  match ComputeGraph.findNode h g item.1 with
  | none => []
  | some node =>
    if item.2 = "" then all item.1 node (h.desc node).getOutputsSize
    else
      let index := getOutputIndexByName (h.desc node) item.2
      [⟨item.1, node, index, index.bmod (2 ^ 32)⟩]

end OutputEntry

/-- The calls, by their form. -/
inductive OutputsCall
  | operators (outputs : List String)
  | indexed (outputIndexs : List (String × List Nat))
  | named (outputs : List (String × String))

namespace OutputsCall

def run (s : OutputGraph) : OutputsCall → Bool × OutputGraph
  | operators outputs => setOutputs s outputs
  | indexed outputIndexs => setOutputsIndexed s outputIndexs
  | named outputs => setOutputsNamed s outputs

/-- A call that succeeds. -/
def step (s : OutputGraph) (c : OutputsCall) : Option OutputGraph := if (c.run s).1 then some (c.run s).2 else none

/-- A call without outputs, which succeeds and does nothing. -/
def IsEmpty : OutputsCall → Prop
  | operators outputs => outputs = []
  | indexed outputIndexs => outputIndexs = []
  | named outputs => outputs = []

instance : DecidablePred IsEmpty := fun c => by cases c <;> unfold IsEmpty <;> infer_instance

/-- Whether the form hands its text to the compute graph. -/
def handsOver : OutputsCall → Bool
  | named _ => false
  | _ => true

/-- The outputs a call designates in a graph. -/
def entries (h : Heap) (g : GraphId) : OutputsCall → List OutputEntry
  | operators outputs => outputs.flatMap fun output => OutputEntry.ofIndexed h g (output, [])
  | indexed outputIndexs => outputIndexs.flatMap (OutputEntry.ofIndexed h g)
  | named outputs => outputs.flatMap (OutputEntry.ofNamed h g)

end OutputsCall

/-- The outputs stored in a graph, by the names of their nodes. -/
def storedOutputs (s : OutputGraph) (g : GraphId) : List (String × Int) :=
  (s.heap.graph g).outputNodesInfo.map fun e => (Node.getName s.heap e.1, e.2)

/-- A text read as a list of items between semicolons. -/
def outputItems (text : String) : List String := if text = "" then [] else StringUtils.split text ';'

/-- The text handed over lists the outputs stored. -/
def Agrees (s : OutputGraph) (g : GraphId) : Prop :=
  outputItems s.userDefOutput = (storedOutputs s g).map fun e => itemText e.1 e.2

/-- The names of the nodes of a graph have no separator. -/
def FreeNames (h : Heap) (g : GraphId) : Prop :=
  ∀ n ∈ (h.graph g).nodes, ':' ∉ (Node.getName h n).toList ∧ ';' ∉ (Node.getName h n).toList

/-- What is written is what is stored: behind a text left before, the name asked for gives that of the node, and the index written
is the one stored. -/
def OutputEntry.Exact (h : Heap) (left : String) (e : OutputEntry) : Prop :=
  Node.getName h e.node = left ++ e.name ∧ e.index = e.written

instance (h : Heap) (left : String) (e : OutputEntry) : Decidable (e.Exact h left) := inferInstanceAs (Decidable (_ ∧ _))

/-- Outputs written behind a text left before: the first stands as stored with what was left, the others as they are. Where there
are none, what was left is a character at most, which is cut off. -/
def OutputEntry.AllExact (h : Heap) (left : String) : List OutputEntry → Prop
  | [] => left.length ≤ 1
  | e :: es => e.Exact h left ∧ ∀ e ∈ es, e.Exact h ""

/-- A call that hands its text over writes what it stores, behind the text left of the calls before. For a call with names of
outputs, the text handed over before lists the outputs designated. -/
def OutputsCall.Fits (s : OutputGraph) (g : GraphId) (c : OutputsCall) : Prop :=
  match c with
  | named _ => outputItems s.userDefOutput = (c.entries s.heap g).map fun e => itemText (Node.getName s.heap e.node) e.index
  | _ => OutputEntry.AllExact s.heap s.graph.outputName (c.entries s.heap g)

end GraphImpl

namespace OutputTextsAux

open GraphImpl

/-! ## What the loops add -/

/-- The text of outputs, a separator behind each. -/
def texts (es : List OutputEntry) : List Char := es.flatMap fun e => (itemText e.name e.written).toList ++ [';']

def addEntries (outputs : Outputs) (es : List OutputEntry) : Outputs :=
  (outputs.1 ++ String.ofList (texts es), outputs.2 ++ es.map fun e => (e.node, e.index))

theorem addEntries_nil (outputs : Outputs) : addEntries outputs [] = outputs := by simp [addEntries, texts]

theorem addEntries_addEntries (outputs : Outputs) (es fs : List OutputEntry) :
    addEntries (addEntries outputs es) fs = addEntries outputs (es ++ fs) := by
  simp [addEntries, texts, String.append_assoc]

theorem add_eq (outputs : Outputs) (name : String) (node : NodeId) (written index : Int) :
    outputs.add name node written index = addEntries outputs [⟨name, node, written, index.bmod (2 ^ 32)⟩] := by
  refine Prod.ext (String.toList_inj.mp ?_) rfl
  simp [Outputs.add, addEntries, texts, itemText, String.toList_append]

/-- A loop whose body adds outputs adds those of all items. -/
theorem foldl_addEntries {α : Type} {f : Outputs → α → Outputs} {entriesOf : α → List OutputEntry}
    (hf : ∀ outputs x, f outputs x = addEntries outputs (entriesOf x)) (l : List α) (outputs : Outputs) :
    l.foldl f outputs = addEntries outputs (l.flatMap entriesOf) := by
  induction l generalizing outputs with
  | nil => exact (addEntries_nil outputs).symm
  | cons x l ih => rw [foldl_cons, hf, ih, addEntries_addEntries, flatMap_cons]

theorem addAll_eq (outputs : Outputs) (name : String) (node : NodeId) (outSize : Nat) :
    outputs.addAll name node outSize = addEntries outputs (OutputEntry.all name node outSize) := by
  rw [Outputs.addAll, foldl_addEntries (fun outputs (i : Nat) => add_eq outputs name node i i), OutputEntry.all,
    map_eq_flatMap]

theorem addAt_eq (outputs : Outputs) (name : String) (node : NodeId) (outSize : Nat) (indexs : List Nat) :
    outputs.addAt name node outSize indexs = addEntries outputs (OutputEntry.listed name node outSize indexs) := by
  have hbody : ∀ (outputs : Outputs) (e : Nat × Nat),
      (if e.1 ≥ outSize then outputs else outputs.add name node e.2 e.1) =
        addEntries outputs (if e.1 < outSize then [⟨name, node, e.2, (e.1 : Int).bmod (2 ^ 32)⟩] else []) := by
    intro outputs e
    by_cases he : e.1 < outSize
    · rw [if_neg (Nat.not_le.mpr he), if_pos he, add_eq]
    · rw [if_pos (Nat.not_lt.mp he), if_neg he, addEntries_nil]
  rw [Outputs.addAt, foldl_addEntries hbody, OutputEntry.listed]
  congr 1
  induction indexs.zipIdx with
  | nil => rfl
  | cons e l ih =>
    rw [flatMap_cons, ih, filter_cons]
    by_cases he : e.1 < outSize
    · simp [he]
    · simp [he]

theorem enterIndexed_eq (h : Heap) (g : GraphId) (outputs : Outputs) (item : String × List Nat) :
    enterIndexed h g outputs item = addEntries outputs (OutputEntry.ofIndexed h g item) := by
  unfold enterIndexed OutputEntry.ofIndexed
  cases ComputeGraph.findNode h g item.1 with
  | none => exact (addEntries_nil outputs).symm
  | some node =>
    dsimp only
    split
    · exact addAll_eq ..
    · exact addAt_eq ..

theorem enterNamed_eq {h : Heap} {g : GraphId} : ∀ {items : List (String × String)} {outputs entered : Outputs},
    enterNamed h g items outputs = (true, entered) → entered = addEntries outputs (items.flatMap (OutputEntry.ofNamed h g))
  | [], outputs, entered, hrun => by
    obtain rfl : outputs = entered := congrArg Prod.snd hrun
    exact (addEntries_nil outputs).symm
  | item :: items, outputs, entered, hrun => by
    rw [flatMap_cons, ← addEntries_addEntries]
    unfold enterNamed at hrun
    unfold OutputEntry.ofNamed
    cases hnode : ComputeGraph.findNode h g item.1 with
    | none =>
      rw [hnode] at hrun
      cases hrun
    | some node =>
      rw [hnode] at hrun
      dsimp only at hrun ⊢
      split at hrun
      next hall =>
        rw [if_pos hall, ← addAll_eq]
        exact enterNamed_eq hrun
      next hone =>
        rw [if_neg hone, ← add_eq]
        split at hrun
        next => cases hrun
        next => exact enterNamed_eq hrun

/-! ## What a call does -/

variable {s t : OutputGraph} {g : GraphId} {c : OutputsCall}

/-- A call with outputs that succeeds: the text with those of the call behind it and its last character cut off, the outputs
stored, and what is handed over. -/
structure Given (s t : OutputGraph) (g : GraphId) (c : OutputsCall) : Prop where
  computeGraph : t.graph.computeGraph = some g
  text : t.graph.outputName = cutLast (s.graph.outputName ++ String.ofList (texts (c.entries s.heap g)))
  handed : t.userDefOutput = if c.handsOver then t.graph.outputName else s.userDefOutput
  heap : t.heap = s.heap.setGraph g
    { s.heap.graph g with outputNodesInfo := (c.entries s.heap g).map fun e => (e.node, e.index) }

theorem given_indexed (hg : s.graph.computeGraph = some g) {outputIndexs : List (String × List Nat)} (hne : outputIndexs ≠ []) :
    (setOutputsIndexed s outputIndexs).1 = true ∧ Given s (setOutputsIndexed s outputIndexs).2 g (.indexed outputIndexs) := by
  have hloop := foldl_addEntries (enterIndexed_eq s.heap g) outputIndexs (s.graph.outputName, [])
  unfold setOutputsIndexed
  rw [hg]
  dsimp only
  rw [if_neg hne, hloop]
  exact ⟨rfl, hg, rfl, rfl, rfl⟩

/-- A call that succeeds is made on a graph that has a compute graph; it has no outputs and does nothing, or has some. -/
theorem given_of_step (hg : s.graph.computeGraph = some g) (ht : c.step s = some t) :
    (c.IsEmpty ∧ t = s) ∨ (¬ c.IsEmpty ∧ Given s t g c) := by
  obtain ⟨hok, rfl⟩ : (c.run s).1 = true ∧ (c.run s).2 = t := by
    unfold OutputsCall.step at ht
    split at ht
    next hok => exact ⟨hok, Option.some.inj ht⟩
    next => cases ht
  cases c with
  | operators outputs =>
    by_cases hempty : outputs = []
    · subst hempty
      refine .inl ⟨rfl, ?_⟩
      simp [OutputsCall.run, setOutputs, hg]
    · have hrun : setOutputs s outputs = setOutputsIndexed s (outputs.map fun output => (output, [])) := by
        unfold setOutputs
        rw [hg]
        exact if_neg hempty
      have hne : outputs.map (fun output => (output, ([] : List Nat))) ≠ [] := by simpa using hempty
      have hgiven := (given_indexed hg hne).2
      have hentries : (OutputsCall.operators outputs).entries s.heap g =
          (OutputsCall.indexed (outputs.map fun output => (output, []))).entries s.heap g := by
        simp only [OutputsCall.entries, flatMap_map]
      refine .inr ⟨hempty, ?_⟩
      rw [OutputsCall.run, hrun]
      exact ⟨hgiven.computeGraph, hentries ▸ hgiven.text, hgiven.handed, hentries ▸ hgiven.heap⟩
  | indexed outputIndexs =>
    by_cases hempty : outputIndexs = []
    · subst hempty
      refine .inl ⟨rfl, ?_⟩
      simp [OutputsCall.run, setOutputsIndexed, hg]
    · exact .inr ⟨hempty, (given_indexed hg hempty).2⟩
  | named outputs =>
    by_cases hempty : outputs = []
    · subst hempty
      refine .inl ⟨rfl, ?_⟩
      simp [OutputsCall.run, setOutputsNamed, hg]
    · refine .inr ⟨hempty, ?_⟩
      unfold OutputsCall.run setOutputsNamed at hok ⊢
      rw [hg] at hok ⊢
      dsimp only at hok ⊢
      rw [if_neg hempty] at hok ⊢
      split at hok
      next => cases hok
      next entered hentered =>
        obtain rfl := enterNamed_eq hentered
        exact ⟨hg, rfl, rfl, rfl⟩

/-! ## What a text lists -/

/-- The last separator goes when the outputs are joined. -/
theorem dropLast_texts (es : List OutputEntry) :
    (texts es).dropLast = [';'].intercalate (es.map fun e => (itemText e.name e.written).toList) := by
  induction es with
  | nil => rfl
  | cons e es ih =>
    cases es with
    | nil => simp [texts]
    | cons d es =>
      rw [texts, flatMap_cons, dropLast_append_of_ne_nil (by simp), ← texts, ih, map_cons, map_cons]
      exact intercalate_cons_cons.symm

/-- The text of a call: what was left without its last character, or what was left and the outputs behind it. -/
theorem toList_cutLast (text : String) (es : List OutputEntry) : (cutLast (text ++ String.ofList (texts es))).toList =
    match es with
    | [] => text.toList.dropLast
    | e :: es => [';'].intercalate ((text ++ itemText e.name e.written).toList ::
        es.map fun e => (itemText e.name e.written).toList) := by
  have hcut : ∀ s : String, (cutLast s).toList = s.toList.dropLast := by
    intro s
    unfold cutLast
    split
    next h => rw [h]; rfl
    next => exact String.toList_ofList
  rw [hcut, String.toList_append, String.toList_ofList]
  cases es with
  | nil => simp [texts]
  | cons e es =>
    have hne : texts (e :: es) ≠ [] := by simp [texts]
    rw [dropLast_append_of_ne_nil hne, dropLast_texts, map_cons]
    dsimp only
    rw [String.toList_append]
    cases es with
    | nil => simp
    | cons d es =>
      rw [map_cons, intercalate_cons_cons, intercalate_cons_cons]
      simp only [append_assoc]

/-- Texts of which one has no separator are joined alike when they are the same, where there are as many. -/
theorem eq_of_intercalate {E L : List (List Char)} (hlen : E.length = L.length) (hfree : ∀ l ∈ L, ';' ∉ l)
    (h : [';'].intercalate E = [';'].intercalate L) : E = L := by
  have hcount : ∀ X : List (List Char), ([';'].intercalate X).count ';' = (X.map (List.count ';')).sum + (X.length - 1) := by
    intro X
    induction X with
    | nil => rfl
    | cons x X ih =>
      cases X with
      | nil => simp
      | cons y X =>
        rw [intercalate_cons_cons, count_append, count_append, ih]
        simp only [map_cons, sum_cons, count_singleton_self, length_cons]
        omega
  have hsum : ∀ l ∈ E, ';' ∉ l := by
    have hzero : (L.map (List.count ';')).sum = 0 := by
      refine sum_eq_zero fun n hn => ?_
      obtain ⟨l, hl, rfl⟩ := List.mem_map.mp hn
      exact count_eq_zero.mpr (hfree l hl)
    have hE := (hcount E).symm.trans ((congrArg (List.count ';') h).trans (hcount L))
    intro l hl
    have hle := single_le_sum (fun _ _ => Nat.zero_le _) (List.count ';' l) (mem_map_of_mem (f := List.count ';') hl)
    exact count_eq_zero.mp (by omega)
  cases E with
  | nil => exact (length_eq_zero_iff.mp hlen.symm).symm
  | cons e E =>
    cases L with
    | nil => cases hlen
    | cons l L =>
      rw [← splitOn_intercalate ';' hsum (cons_ne_nil e E), h, splitOn_intercalate ';' hfree (cons_ne_nil l L)]

/-- Items are the same when their names and indices are, where one name has no colon. -/
theorem itemText_inj {m n : String} {i j : Int} (hn : ':' ∉ n.toList) : itemText m i = itemText n j ↔ m = n ∧ i = j := by
  constructor
  · intro h
    have hchars : m.toList ++ ':' :: (toString i).toList = n.toList ++ ':' :: (toString j).toList := by
      have hlist := congrArg String.toList h
      simpa [itemText, String.toList_append] using hlist
    obtain ⟨hname, -, hindex⟩ := (append_cons_inj_of_notMem hn (NodeIndexAux.not_mem_toString j)).mp hchars.symm
    exact ⟨String.toList_inj.mp hname.symm, Int.repr_injective (String.toList_inj.mp hindex.symm)⟩
  · rintro ⟨rfl, rfl⟩
    rfl

theorem not_mem_itemText {n : String} (hn : ';' ∉ n.toList) (i : Int) : ';' ∉ (itemText n i).toList := by
  rw [itemText, String.toList_append, String.toList_append, mem_append, mem_append]
  rintro ((hc | hc) | hc)
  · exact hn hc
  · exact absurd hc (by decide)
  · exact (not_isSpace (isDigit_or_minus hc)).2.1 rfl

/-- The items of a text are those it was joined from, where these have no separator. -/
theorem outputItems_iff {text : String} {l : List (String × Int)} (hfree : ∀ e ∈ l, ';' ∉ e.1.toList) :
    outputItems text = l.map (fun e => itemText e.1 e.2) ↔
      text.toList = [';'].intercalate (l.map fun e => (itemText e.1 e.2).toList) := by
  have hsep : ∀ t ∈ l.map (fun e => (itemText e.1 e.2).toList), ';' ∉ t := by
    intro t ht
    obtain ⟨e, he, rfl⟩ := List.mem_map.mp ht
    exact not_mem_itemText (hfree e he) e.2
  have hback : (l.map fun e => (itemText e.1 e.2).toList).map String.ofList = l.map fun e => itemText e.1 e.2 := by
    rw [map_map]
    exact map_congr_left fun e _ => String.ofList_toList
  unfold outputItems
  split
  next hempty =>
    subst hempty
    cases l with
    | nil => exact iff_of_true rfl rfl
    | cons e l =>
      refine iff_of_false (by simp) fun h => ?_
      have hlen := congrArg List.length h
      cases l with
      | nil => simp [itemText, String.toList_append] at hlen
      | cons d l =>
        rw [map_cons, map_cons, intercalate_cons_cons] at hlen
        simp [itemText, String.toList_append] at hlen
  next hne =>
    rw [ScopePathsAux.split_eq, ← hback]
    constructor
    · intro h
      have hpieces := map_injective_iff.mpr (fun a b hab => String.ofList_inj.mp hab) h
      rw [← hpieces, intercalate_splitOn]
    · intro h
      have hl : l.map (fun e => (itemText e.1 e.2).toList) ≠ [] := by
        intro hnil
        rw [hnil] at h
        exact hne (String.toList_inj.mp h)
      rw [h, splitOn_intercalate ';' hsep hl]

/-! ## One call -/

theorem mem_nodes_of_entry {h : Heap} {e : OutputEntry} (he : e ∈ c.entries h g) : e.node ∈ (h.graph g).nodes := by
  have hfind : ∀ {name : String} {node : NodeId}, ComputeGraph.findNode h g name = some node → node ∈ (h.graph g).nodes :=
    fun hnode => mem_of_find?_eq_some hnode
  have hall : ∀ {name : String} {node : NodeId} {outSize : Nat}, e ∈ OutputEntry.all name node outSize → e.node = node := by
    intro name node outSize he
    obtain ⟨i, -, rfl⟩ := List.mem_map.mp he
    rfl
  have hindexed : ∀ item : String × List Nat, e ∈ OutputEntry.ofIndexed h g item → e.node ∈ (h.graph g).nodes := by
    intro item he
    unfold OutputEntry.ofIndexed at he
    cases hnode : ComputeGraph.findNode h g item.1 with
    | none =>
      rw [hnode] at he
      cases he
    | some node =>
      rw [hnode] at he
      dsimp only at he
      split at he
      · exact hall he ▸ hfind hnode
      · obtain ⟨i, -, rfl⟩ := List.mem_map.mp he
        exact hfind hnode
  have hnamed : ∀ item : String × String, e ∈ OutputEntry.ofNamed h g item → e.node ∈ (h.graph g).nodes := by
    intro item he
    unfold OutputEntry.ofNamed at he
    cases hnode : ComputeGraph.findNode h g item.1 with
    | none =>
      rw [hnode] at he
      cases he
    | some node =>
      rw [hnode] at he
      dsimp only at he
      split at he
      · exact hall he ▸ hfind hnode
      · rw [mem_singleton.mp he]
        exact hfind hnode
  cases c with
  | operators outputs =>
    obtain ⟨output, -, he⟩ := mem_flatMap.mp he
    exact hindexed _ he
  | indexed outputIndexs =>
    obtain ⟨item, -, he⟩ := mem_flatMap.mp he
    exact hindexed _ he
  | named outputs =>
    obtain ⟨item, -, he⟩ := mem_flatMap.mp he
    exact hnamed _ he

/-- A text written of outputs lists what is stored when it begins so and goes on so. -/
theorem joined_iff {h : Heap} (left : String) {es : List OutputEntry}
    (hfree : ∀ e ∈ es, ':' ∉ (Node.getName h e.node).toList ∧ ';' ∉ (Node.getName h e.node).toList) :
    (cutLast (left ++ String.ofList (texts es))).toList =
        [';'].intercalate (es.map fun e => (itemText (Node.getName h e.node) e.index).toList) ↔
      OutputEntry.AllExact h left es := by
  rw [toList_cutLast]
  cases es with
  | nil =>
    rw [map_nil, intercalate_nil, OutputEntry.AllExact, ← String.length_toList, ← length_eq_zero_iff,
      length_dropLast, Nat.sub_eq_zero_iff_le]
  | cons e es =>
    dsimp only
    rw [map_cons]
    obtain ⟨he, hes⟩ := forall_mem_cons.mp hfree
    have hitem : ∀ (d : OutputEntry) (before : String), ':' ∉ (Node.getName h d.node).toList →
        ((before ++ itemText d.name d.written).toList = (itemText (Node.getName h d.node) d.index).toList ↔ d.Exact h before) := by
      intro d before hd
      have happend : before ++ itemText d.name d.written = itemText (before ++ d.name) d.written := by
        rw [itemText, itemText, String.append_assoc, String.append_assoc, String.append_assoc]
      rw [String.toList_inj, happend, itemText_inj hd, OutputEntry.Exact, eq_comm, @eq_comm Int]
    constructor
    · intro heq
      have hsame := eq_of_intercalate (by simp) (fun l hl => ?_) heq
      · obtain ⟨hhead, htail⟩ := List.cons.inj hsame
        refine ⟨(hitem e left he.1).mp hhead, fun d hd => (hitem d "" (hes d hd).1).mp ?_⟩
        rw [String.empty_append]
        exact map_inj_left.mp htail d hd
      · rcases mem_cons.mp hl with rfl | hl
        · exact not_mem_itemText he.2 _
        · obtain ⟨d, hd, rfl⟩ := List.mem_map.mp hl
          exact not_mem_itemText (hes d hd).2 _
    · rintro ⟨hhead, htail⟩
      rw [(hitem e left he.1).mpr hhead]
      congr 2
      refine map_congr_left fun d hd => ?_
      rw [← (hitem d "" (hes d hd).1).mpr (htail d hd), String.empty_append]

/-- What is stored by a call, by the names of the nodes. -/
theorem storedOutputs_given (hgiven : Given s t g c) :
    storedOutputs t g = (c.entries s.heap g).map fun e => (Node.getName s.heap e.node, e.index) := by
  rw [storedOutputs, hgiven.heap]
  simp only [Heap.setGraph, Function.update_self, map_map]
  rfl

/-- The text agrees with the outputs after a call that fits, and after no other. -/
theorem agrees_iff (hfree : FreeNames s.heap g) (hgiven : Given s t g c) : Agrees t g ↔ c.Fits s g := by
  have hentries : ∀ e ∈ c.entries s.heap g,
      ':' ∉ (Node.getName s.heap e.node).toList ∧ ';' ∉ (Node.getName s.heap e.node).toList :=
    fun e he => hfree _ (mem_nodes_of_entry he)
  have hnames : ∀ e ∈ (c.entries s.heap g).map (fun e => (Node.getName s.heap e.node, e.index)), ';' ∉ e.1.toList := by
    intro e he
    obtain ⟨d, hd, rfl⟩ := List.mem_map.mp he
    exact (hentries d hd).2
  have hwritten := joined_iff s.graph.outputName hentries
  rw [Agrees, storedOutputs_given hgiven]
  cases c with
  | named outputs =>
    have hkept : t.userDefOutput = s.userDefOutput := hgiven.handed
    rw [hkept, map_map]
    rfl
  | operators outputs =>
    have hhanded : t.userDefOutput = t.graph.outputName := hgiven.handed
    rw [outputItems_iff hnames, hhanded, hgiven.text, map_map]
    exact hwritten
  | indexed outputIndexs =>
    have hhanded : t.userDefOutput = t.graph.outputName := hgiven.handed
    rw [outputItems_iff hnames, hhanded, hgiven.text, map_map]
    exact hwritten

end OutputTextsAux

open GraphImpl OutputTextsAux in
/-- In a run of calls that succeed on a graph whose nodes have names without separators, the text handed over lists the outputs
stored after each call with outputs if and only if each of these calls fits. -/
theorem outputTexts_agree_iff (s : OutputGraph) (g : GraphId) (hg : s.graph.computeGraph = some g) (hfree : FreeNames s.heap g)
    (calls : List OutputsCall) :
    Run.Each OutputsCall.step (fun s c => ∀ t, c.step s = some t → ¬ c.IsEmpty → Agrees t g) calls s ↔
      Run.Each OutputsCall.step (fun s c => ∀ t, c.step s = some t → ¬ c.IsEmpty → c.Fits s g) calls s := by
  refine Run.each_congr (P := fun s => s.graph.computeGraph = some g ∧ FreeNames s.heap g) ?_ ?_ calls s ⟨hg, hfree⟩
  · rintro s c ⟨hg, hfree⟩
    refine forall₂_congr fun t ht => forall_congr' fun hne => ?_
    rcases given_of_step hg ht with ⟨hempty, -⟩ | ⟨-, hgiven⟩
    · exact absurd hempty hne
    · exact agrees_iff hfree hgiven
  · rintro s c t ⟨hg, hfree⟩ - ht
    rcases given_of_step hg ht with ⟨-, rfl⟩ | ⟨-, hgiven⟩
    · exact ⟨hg, hfree⟩
    · refine ⟨hgiven.computeGraph, fun n hn => ?_⟩
      rw [hgiven.heap] at hn ⊢
      refine hfree n ?_
      simpa [Heap.setGraph, Function.update_self] using hn

namespace OutputTextsWitness

open GraphImpl

/-- A graph with a node of two outputs. -/
def pair : OutputGraph where
  heap := ((Heap.empty.setOp 0 { opDef := { name := "a" }, outputsDesc := [{}, {}] }).setNode 0
    { op := 0, inControlAnchor := 0, outControlAnchor := 1 }).setGraph 0 { nodes := [0] }
  graph := { computeGraph := some 0 }

theorem free_pair : FreeNames pair.heap 0 := by
  intro n hn
  obtain rfl : n = 0 := mem_singleton.mp hn
  decide +kernel

/-- Both outputs are asked for, each at its own place, and then again by their names. -/
def calls : List OutputsCall := [.indexed [("a", [0, 1])], .named [("a", "")]]

theorem outputTexts_agree_iff_pair : Run.Each OutputsCall.step
    (fun s c => ∀ t, c.step s = some t → ¬ c.IsEmpty → Agrees t 0) calls pair := by
  refine (outputTexts_agree_iff pair 0 rfl free_pair calls).mpr ⟨fun t _ _ => ?_, fun t ht => ⟨fun u _ _ => ?_, ?_⟩⟩
  · exact ⟨⟨rfl, rfl⟩, by decide +kernel⟩
  · obtain rfl := Option.some.inj ht
    show outputItems _ = _
    decide +kernel
  · exact fun _ _ => trivial

/-- The output at index 1 is written as the one at index 0. -/
theorem outputTexts_agree_false : ¬ ∀ (s : OutputGraph) (g : GraphId) (calls : List OutputsCall), s.graph.computeGraph = some g →
    FreeNames s.heap g → s.graph.outputName = "" → s.userDefOutput = "" →
      Run.Each OutputsCall.step (fun s c => ∀ t, c.step s = some t → ¬ c.IsEmpty → Agrees t g) calls s := by
  intro h
  have hagrees := (h pair 0 [.indexed [("a", [1])]] rfl free_pair rfl rfl).1 _ rfl (by decide)
  exact absurd hagrees (by unfold Agrees; decide +kernel)

end OutputTextsWitness

end Metadef
