import Metadef.Lemmas.NodeWalks
import Metadef.Lib.JoinedLists
import Metadef.RefRelation

/-!
# The lists behind reference relations

What the classes of a node are before and after they are joined, read off the graph: the data nodes and the outputs of its
subgraphs by the index each names, and the ties between the indexes of a loop. Relations that are built hold these lists.
-/

namespace Metadef

open List

open RefRelations JoinedLists

/-! ## Lists of a node -/

namespace RefLists

variable (h : Heap) (x : RefIndexes) (g : GraphId) (w : NodeId)

/-- The nodes of a type in some graphs. -/
def nodesOfType (graphs : List GraphId) (type : String) : List NodeId :=
  graphs.flatMap fun sub => (h.graph sub).nodes.filter (Node.getType h · = type)

/-- The data nodes of the subgraphs of a node. -/
def dataNodes : List NodeId := nodesOfType h (h.resolved g w) "Data"

/-- The outputs of the subgraphs of a node, of a loop without its condition. -/
def netoutputs : List NodeId :=
  nodesOfType h (if Node.getType h w = "While" then (h.resolved g w).tail else h.resolved g w) "NetOutput"

/-- The data nodes that name an index, the last first. -/
def dataAt (i : Nat) : List NodeId := (dataNodes h g w).reverse.filter fun data => x.ofNode (h.node data).op = some (i : Int)

/-- The inputs of an output that name an index. -/
def inputsAt (i : Nat) (net : NodeId) : List (NodeId × Nat) :=
  (h.node net).inDataAnchors.filterMap fun a =>
    if x.ofInput (h.node net).op (h.anchor a).idx.toNat = some (i : Int) then some (net, (h.anchor a).idx.toNat) else none

/-- The inputs of outputs that name an index. -/
def netsAt (i : Nat) : List (NodeId × Nat) := (netoutputs h g w).flatMap (inputsAt h x i)

/-- How many indexes the subgraphs may name. -/
def maxElemNum : Nat := max (dataNodes h g w).length kMaxElementNum

/-- The class of an index of the inputs of a branch, and that of one of its outputs. -/
def branchIn (i : Nat) : List RefCell := cell h w .nodeIn i :: dataCells h (dataAt h x g w i)
def branchOut (i : Nat) : List RefCell := cell h w .nodeOut i :: netoutputCells h (netsAt h x g w i)

/-- The class of an index of a loop. -/
def loopClass (i : Nat) : List RefCell := whileClass h w i (dataAt h x g w i) (netsAt h x g w i)

/-- Whether a node is a loop with subgraphs. -/
def IsLoop : Prop := (h.desc w).subgraphInstanceNames ≠ [] ∧ Node.getType h w = "While"

instance : Decidable (IsLoop h w) := inferInstanceAs (Decidable (_ ∧ _))

/-- The classes of a node before they are joined. -/
def refLists : List (List RefCell) :=
  if (h.desc w).subgraphInstanceNames = [] then []
  else if Node.getType h w = "While" then (List.range (h.node w).inDataAnchors.length).map (loopClass h x g w)
  else (List.range (maxElemNum h g w)).map (branchIn h x g w) ++ (List.range (maxElemNum h g w)).map (branchOut h x g w)

/-- The output of a loop whose inputs are read: that of the input naming the last index. -/
def outputRead : Option NodeId :=
  ((List.range (h.node w).inDataAnchors.length).flatMap (netsAt h x g w)).getLast?.map Prod.fst

/-- The ties of a loop that are read, in the order of the inputs of its output. -/
def readTies : List (Int × Int) :=
  match outputRead h x g w with
  | none => []
  | some net => (h.node net).inDataAnchors.filterMap (tiedIndexes h x net)

/-- The ties of a node. -/
def ties : List (Nat × Nat) :=
  if IsLoop h w then (readTies h x g w).map fun t => (t.1.toNat, t.2.toNat) else []

end RefLists

/-- The lists of the nodes, their ties and the keys of their places. -/
def refFamily (h : Heap) (x : RefIndexes) (address : NodeId → Nat) (g : GraphId) (nodes : List NodeId) :
    JoinedFamily NodeId RefCell String where
  owners := nodes
  base := RefLists.refLists h x g
  ties := RefLists.ties h x g
  key := keyOf address

namespace RefListsAux

open RefLists

variable {h : Heap} {x : RefIndexes} {g : GraphId} {w : NodeId}

/-! ## Sorting by index -/

variable {α ε β : Type} {classes : List (List α)} {f : α → Except ε β} {m fuel : Nat}
  {nodes : List NodeId} {refs : List (List RefCell)} {key : RefCell → String}

theorem getD_modify (lists : List (List α)) (n i : Nat) (a : α) (hn : n < lists.length) :
    (lists.modify n (· ++ [a])).getD i [] = lists.getD i [] ++ if i = n then [a] else [] := by
  rw [getD_eq_getElem?_getD, getElem?_modify, getD_eq_getElem?_getD]
  by_cases hin : i = n
  · subst hin
    simp [hn]
  · simp [hin, Ne.symm hin]

theorem classify_spec {classes' : List (List α)} {i : Int} {a : α} (hc : classify classes i a = .ok classes') :
    classes'.length = classes.length ∧ ∀ k : Nat, classes'.getD k [] = classes.getD k [] ++ if i = k then [a] else [] := by
  unfold classify at hc
  split at hc
  next => cases hc
  next hi =>
    split at hc
    next => cases hc
    next hneg =>
      obtain rfl := Except.ok.inj hc
      refine ⟨length_modify .., fun k => ?_⟩
      rw [getD_modify _ _ _ _ (by omega)]
      have hiff : k = i.toNat ↔ i = k := by omega
      simp only [hiff]

theorem bind_ok {e : Except ε α} {b : β} (hb : e >>= f = .ok b) : ∃ a, e = .ok a ∧ f a = .ok b := by
  cases e with
  | error => cases hb
  | ok a => exact ⟨a, rfl, hb⟩

/-- Folding steps that each put what they put behind the classes puts all of it there, in order. -/
theorem foldlM_classes {step : List (List α) → ε → Except RefFault (List (List α))} (put : Nat → ε → List α)
    (hstep : ∀ classes e classes', step classes e = .ok classes' →
      classes'.length = classes.length ∧ ∀ k, classes'.getD k [] = classes.getD k [] ++ put k e) :
    ∀ (items : List ε) (classes classes' : List (List α)), items.foldlM step classes = .ok classes' →
      classes'.length = classes.length ∧ ∀ k, classes'.getD k [] = classes.getD k [] ++ items.flatMap (put k) := by
  intro items
  induction items with
  | nil =>
    intro classes classes' hfold
    obtain rfl := Except.ok.inj hfold
    simp
  | cons e items ih =>
    intro classes classes' hfold
    rw [foldlM_cons] at hfold
    obtain ⟨next, hnext, hfold⟩ := bind_ok hfold
    obtain ⟨hlen, hput⟩ := hstep classes e next hnext
    obtain ⟨hlen', hput'⟩ := ih next classes' hfold
    refine ⟨hlen'.trans hlen, fun k => ?_⟩
    rw [hput', hput, flatMap_cons, append_assoc]

/-- Classes that began empty are those of each index. -/
theorem eq_map_range {f : Nat → List α} (hlen : classes.length = m)
    (hat : ∀ k, classes.getD k [] = f k) : classes = (List.range m).map f := by
  refine ext_getElem (by simpa using hlen) fun k hk _ => ?_
  have hget : classes.getD k [] = classes[k] := getD_eq_getElem _ _ hk
  rw [getElem_map, getElem_range, ← hget, hat]

theorem getD_replicate_nil (m k : Nat) : (List.replicate m ([] : List α)).getD k [] = [] := by
  rw [getD_eq_getElem?_getD, getElem?_replicate]
  split <;> rfl

theorem flatMap_ite (p : α → Prop) [DecidablePred p] (l : List α) :
    (l.flatMap fun a => if p a then [a] else []) = l.filter fun a => p a := by
  induction l with
  | nil => rfl
  | cons a l ih =>
    by_cases ha : p a
    · simp [ha, ih]
    · simp [ha, ih]

theorem flatMap_ite_map (p : α → Prop) [DecidablePred p] (f : α → β) (l : List α) :
    (l.flatMap fun a => if p a then [f a] else []) = l.filterMap fun a => if p a then some (f a) else none := by
  induction l with
  | nil => rfl
  | cons a l ih =>
    by_cases ha : p a
    · simp [ha, ih]
    · simp [ha, ih]

theorem processSubgraphDataNodes_spec {classes : List (List NodeId)}
    (hp : processSubgraphDataNodes h x nodes (List.replicate m []) = .ok classes) :
    classes = (List.range m).map fun i : Nat => nodes.reverse.filter fun data => x.ofNode (h.node data).op = some (i : Int) := by
  unfold processSubgraphDataNodes at hp
  split at hp
  next => cases hp
  next hall =>
    obtain ⟨hlen, hput⟩ := foldlM_classes
      (fun i data => if (x.ofNode (h.node data).op).getD 0 = i then [data] else []) (fun _ _ _ hc => classify_spec hc) _ _ _ hp
    refine eq_map_range (hlen.trans (length_replicate ..)) fun i => ?_
    rw [hput, getD_replicate_nil, nil_append, flatMap_ite]
    refine filter_congr fun data hdata => ?_
    have hsome : (x.ofNode (h.node data).op).isNone = false := by
      rw [Bool.not_eq_true, any_eq_false] at hall
      exact Bool.eq_false_iff.mpr (hall data (mem_reverse.mp hdata))
    cases hof : x.ofNode (h.node data).op with
    | none => simp [hof] at hsome
    | some j => simp

theorem classifyInput_spec {net : NodeId} {classes classes' : List (List (NodeId × Nat))} {a : AnchorId}
    (hc : classifyInput h x net classes a = .ok classes') : classes'.length = classes.length ∧ ∀ k : Nat,
      classes'.getD k [] = classes.getD k [] ++
        if x.ofInput (h.node net).op (h.anchor a).idx.toNat = some (k : Int) then [(net, (h.anchor a).idx.toNat)] else [] := by
  unfold classifyInput at hc
  simp only at hc
  split at hc
  next => cases hc
  next =>
    split at hc
    next hof =>
      obtain rfl := Except.ok.inj hc
      simp [hof]
    next i hof =>
      obtain ⟨hlen, hput⟩ := classify_spec hc
      refine ⟨hlen, fun k => ?_⟩
      rw [hput, hof]
      simp only [Option.some.injEq]

theorem processSubgraphNetoutput_spec {classes : List (List (NodeId × Nat))}
    (hp : processSubgraphNetoutput h x nodes (List.replicate m []) = .ok classes) :
    classes = (List.range m).map fun i => nodes.flatMap (inputsAt h x i) := by
  obtain ⟨hlen, hput⟩ := foldlM_classes (inputsAt h x) (fun classes net classes' hc => by
    obtain ⟨hlen, hput⟩ := foldlM_classes _ (fun _ _ _ hc => classifyInput_spec hc) _ _ _ hc
    refine ⟨hlen, fun k => ?_⟩
    rw [hput, flatMap_ite_map]
    rfl) _ _ _ hp
  refine eq_map_range (hlen.trans (length_replicate ..)) fun i => ?_
  rw [hput, getD_replicate_nil, nil_append]

/-! ## The nodes of the subgraphs -/

theorem getDataAndNetoutput_spec (hroot : (h.graph g).parentGraph = none) (fuel : Nat) (type : String) :
    ∀ (names : List String) (i : Nat) (found : List NodeId × List NodeId),
      getDataAndNetoutputOfSubGraph h (fuel + 1) g type names i found =
        let graphs := names.filterMap (h.graph g).namesToSubgraph.find
        .ok (found.1 ++ nodesOfType h graphs "Data",
          found.2 ++ nodesOfType h (if type = "While" ∧ i = 0 then graphs.tail else graphs) "NetOutput") := by
  intro names
  induction names with
  | nil => simp [getDataAndNetoutputOfSubGraph, nodesOfType]
  | cons name names ih =>
    intro i found
    unfold getDataAndNetoutputOfSubGraph
    rw [NodeWalks.getSubgraph_root hroot]
    cases hf : (h.graph g).namesToSubgraph.find name with
    | none =>
      rw [filterMap_cons_none hf]
      exact ih i found
    | some sub =>
      rw [filterMap_cons_some hf]
      simp only [ih]
      have hlater : ¬ (type = "While" ∧ i + 1 = 0) := by omega
      rw [if_neg hlater]
      by_cases hcond : type = "While" ∧ i = 0
      · simp [hcond, nodesOfType]
      · simp only [if_neg hcond]
        simp [nodesOfType]

/-! ## The classes of a node -/

theorem joinClasses_spec {lists lists' : List (List RefCell)} {d n : Int} (hj : joinClasses lists d n = .ok lists') :
    lists' = join lists (d.toNat, n.toNat) ∧ d.toNat < lists.length ∧ n.toNat < lists.length := by
  unfold joinClasses at hj
  split at hj
  next => cases hj
  next hbound =>
    obtain rfl := Except.ok.inj hj
    exact ⟨rfl, by omega, by omega⟩

theorem foldlM_joinClasses (ts : List (Int × Int)) : ∀ lists lists' : List (List RefCell),
    ts.foldlM (fun nodeRefs tie => joinClasses nodeRefs tie.1 tie.2) lists = .ok lists' →
      lists' = (ts.map fun t => (t.1.toNat, t.2.toNat)).foldl join lists ∧
        ∀ t ∈ ts.map fun t => (t.1.toNat, t.2.toNat), t.1 < lists.length ∧ t.2 < lists.length := by
  induction ts with
  | nil =>
    intro lists lists' hfold
    obtain rfl := Except.ok.inj hfold
    simp
  | cons t ts ih =>
    intro lists lists' hfold
    rw [foldlM_cons] at hfold
    obtain ⟨next, hnext, hfold⟩ := bind_ok hfold
    obtain ⟨rfl, hbound⟩ := joinClasses_spec hnext
    obtain ⟨rfl, hbounds⟩ := ih _ lists' hfold
    refine ⟨rfl, fun u hu => ?_⟩
    rcases mem_cons.mp hu with rfl | hu
    · exact hbound
    · rw [← length_join lists (t.1.toNat, t.2.toNat)]
      exact hbounds u hu

theorem mapM_ok_mem : ∀ {l : List α} {l' : List β}, l.mapM f = .ok l' → ∀ a ∈ l, ∃ b, f a = .ok b := by
  intro l
  induction l with
  | nil =>
    intro l' _ a ha
    cases ha
  | cons a l ih =>
    intro l' hl b hb
    rw [mapM_cons] at hl
    obtain ⟨c, hc, hl⟩ := bind_ok hl
    obtain ⟨cs, hcs, -⟩ := bind_ok hl
    rcases mem_cons.mp hb with rfl | hb
    · exact ⟨c, hc⟩
    · exact ih hcs b hb

theorem getElem?_map_range (f : Nat → α) (m i : Nat) : ((List.range m).map f)[i]? = if i < m then some (f i) else none := by
  rw [getElem?_map]
  by_cases hi : i < m
  · simp [hi]
  · simp [hi]

theorem zipIdx_map_range (f : Nat → α) (m : Nat) : ((List.range m).map f).zipIdx = (List.range m).map fun i => (f i, i) := by
  refine ext_getElem (by simp) fun i _ _ => ?_
  simp

theorem mapM_bind_of_ok {γ : Type} {v : α → β} {k : List β → Except ε γ} : ∀ {l : List α},
    (∀ a ∈ l, f a = .ok (v a)) → l.mapM f >>= k = k (l.map v) := by
  intro l hf
  have hmap : l.mapM f = .ok (l.map v) := by
    induction l with
    | nil => rfl
    | cons a l ih =>
      rw [mapM_cons, hf a mem_cons_self, ih fun b hb => hf b (mem_cons_of_mem _ hb)]
      rfl
  rw [hmap]
  rfl

/-- The classes of a loop that has no more inputs than there are classes: those of its indexes, joined along its ties. -/
theorem buildRefRelationsForWhile_eq (hm : (h.node w).inDataAnchors.length ≤ m) :
    buildRefRelationsForWhile h x w ((List.range m).map (dataAt h x g w)) ((List.range m).map (netsAt h x g w)) =
      (readTies h x g w).foldlM (fun nodeRefs tie => joinClasses nodeRefs tie.1 tie.2)
        ((List.range (h.node w).inDataAnchors.length).map (loopClass h x g w)) := by
  have htake : (((List.range m).map (netsAt h x g w)).take (h.node w).inDataAnchors.length).flatten.map Prod.fst =
      ((List.range (h.node w).inDataAnchors.length).flatMap (netsAt h x g w)).map Prod.fst := by
    rw [← map_take, take_range, ← flatMap_def, Nat.min_eq_left hm]
  refine (mapM_bind_of_ok (v := loopClass h x g w) fun i hi => ?_).trans ?_
  · have him : i < m := Nat.lt_of_lt_of_le (mem_range.mp hi) hm
    simp only [getElem?_map_range, if_pos him]
    rfl
  · simp only [htake, getLast?_map]
    unfold readTies outputRead
    cases ((List.range (h.node w).inDataAnchors.length).flatMap (netsAt h x g w)).getLast? <;> rfl

/-- The classes of a loop, from the classes of its data nodes and outputs. -/
theorem buildRefRelationsForWhile_spec
    (hb : buildRefRelationsForWhile h x w ((List.range m).map (dataAt h x g w)) ((List.range m).map (netsAt h x g w)) = .ok refs) :
    let lists := (List.range (h.node w).inDataAnchors.length).map (loopClass h x g w)
    let read := (readTies h x g w).map fun t => (t.1.toNat, t.2.toNat)
    refs = read.foldl join lists ∧ ∀ t ∈ read, t.1 < lists.length ∧ t.2 < lists.length := by
  have hm : (h.node w).inDataAnchors.length ≤ m := by
    obtain ⟨lists, hlists, -⟩ := bind_ok hb
    by_contra hlt
    obtain ⟨_, hc⟩ := mapM_ok_mem hlists m (mem_range.mpr (by omega))
    simp at hc
  rw [buildRefRelationsForWhile_eq hm] at hb
  exact foldlM_joinClasses _ _ _ hb

/-- A node with subgraphs is classified and related. -/
theorem nodeRefs_eq (hroot : (h.graph g).parentGraph = none) (fuel : Nat) (hnames : (h.desc w).subgraphInstanceNames ≠ []) :
    nodeRefs h x (fuel + 1) g w =
      processSubgraphDataNodes h x (dataNodes h g w) (List.replicate (maxElemNum h g w) []) >>= fun classedData =>
        processSubgraphNetoutput h x (netoutputs h g w) (List.replicate (maxElemNum h g w) []) >>= fun classedNets =>
          buildRelationsWithFuncNodeType h x w classedData classedNets := by
  have hempty : (h.desc w).subgraphInstanceNames.isEmpty = false := by simpa using hnames
  unfold nodeRefs
  simp only [hempty]
  rw [getDataAndNetoutput_spec hroot]
  simp only [nil_append, and_true]
  rfl

theorem nodeRefs_of_empty (hnames : (h.desc w).subgraphInstanceNames = []) : nodeRefs h x fuel g w = .ok [] := by
  unfold nodeRefs
  rw [if_pos (by simp [hnames])]
  rfl

theorem nodeRefs_spec (hroot : (h.graph g).parentGraph = none) (hn : nodeRefs h x fuel g w = .ok refs) :
    refs = (ties h x g w).foldl join (refLists h x g w) ∧
      ∀ t ∈ ties h x g w, t.1 < (refLists h x g w).length ∧ t.2 < (refLists h x g w).length := by
  by_cases hnames : (h.desc w).subgraphInstanceNames = []
  · rw [nodeRefs_of_empty hnames] at hn
    obtain rfl := Except.ok.inj hn
    simp [ties, refLists, IsLoop, hnames]
  · cases fuel with
    | zero =>
      obtain ⟨name, names, hcons⟩ := exists_cons_of_ne_nil hnames
      unfold nodeRefs at hn
      simp only [hcons] at hn
      cases hn
    | succ fuel =>
      rw [nodeRefs_eq hroot fuel hnames] at hn
      obtain ⟨classedData, hdata, hn⟩ := bind_ok hn
      obtain ⟨classedNets, hnets, hn⟩ := bind_ok hn
      obtain rfl := processSubgraphDataNodes_spec hdata
      obtain rfl := processSubgraphNetoutput_spec hnets
      change buildRelationsWithFuncNodeType h x w ((List.range (maxElemNum h g w)).map (dataAt h x g w))
        ((List.range (maxElemNum h g w)).map (netsAt h x g w)) = .ok refs at hn
      unfold buildRelationsWithFuncNodeType at hn
      unfold ties refLists IsLoop
      by_cases htype : Node.getType h w = "While"
      · rw [if_neg (by simpa using htype)] at hn
        simpa [hnames, htype] using buildRefRelationsForWhile_spec hn
      · rw [if_pos (by simpa using htype)] at hn
        obtain rfl := Except.ok.inj hn
        unfold buildRefRelationsForBranch
        rw [zipIdx_map_range, zipIdx_map_range, map_map, map_map]
        simp only [htype, and_false, if_false, hnames]
        exact ⟨rfl, fun t ht => by cases ht⟩

/-! ## The relations built -/

theorem relateNodes_spec (hroot : (h.graph g).parentGraph = none) : ∀ {nodes : List NodeId} {r r' : RefRelations},
    relateNodes h x fuel g nodes r = (r', none) → r'.lookUpTable = r.lookUpTable ∧
      r'.values.flatten = r.values.flatten ++ nodes.flatMap (fun w => (ties h x g w).foldl join (refLists h x g w)) ∧
      ∀ w ∈ nodes, ∀ t ∈ ties h x g w, t.1 < (refLists h x g w).length ∧ t.2 < (refLists h x g w).length := by
  intro nodes
  induction nodes with
  | nil =>
    intro r r' hr
    obtain rfl : r = r' := (Prod.mk.inj hr).1
    simp
  | cons w nodes ih =>
    intro r r' hr
    unfold relateNodes at hr
    cases hn : nodeRefs h x fuel g w with
    | error fault => simp [hn] at hr
    | ok refs =>
      simp only [hn] at hr
      obtain ⟨hrefs, hbound⟩ := nodeRefs_spec hroot hn
      obtain ⟨htable, hvalues, hbounds⟩ := ih hr
      have hall : ∀ u ∈ w :: nodes, ∀ t ∈ ties h x g u, t.1 < (refLists h x g u).length ∧ t.2 < (refLists h x g u).length := by
        intro u hu
        rcases mem_cons.mp hu with rfl | hu
        · exact hbound
        · exact hbounds u hu
      by_cases hempty : refs.isEmpty
      · rw [if_pos hempty] at htable hvalues
        refine ⟨htable, ?_, hall⟩
        rw [hvalues, flatMap_cons, ← hrefs, List.isEmpty_iff.mp hempty, nil_append]
      · rw [if_neg hempty] at htable hvalues
        refine ⟨htable, ?_, hall⟩
        rw [hvalues, flatMap_cons, ← hrefs]
        simp

theorem find_assignAll (v : List RefCell) (k : String) : ∀ (cells : List RefCell) (t : OrderedMap String (List RefCell)),
    (cells.foldl (fun t c => t.assign (key c) v) t).find k =
      if cells.any (fun c => decide (key c = k)) then some v else t.find k := by
  intro cells
  induction cells with
  | nil => simp
  | cons c cells ih =>
    intro t
    rw [foldl_cons, ih, OrderedMap.find_assign, any_cons]
    by_cases hc : key c = k
    · simp [hc]
    · simp [hc, Ne.symm hc]

theorem find_table (k : String) : ∀ (lists : List (List RefCell)) (t : OrderedMap String (List RefCell)),
    (lists.foldl (fun t ele => ele.foldl (fun t c => t.assign (key c) ele) t) t).find k =
      (lists.reverse.find? fun l => l.any fun c => decide (key c = k)).or (t.find k) := by
  intro lists
  induction lists with
  | nil => simp
  | cons l lists ih =>
    intro t
    rw [foldl_cons, ih, find_assignAll, reverse_cons, find?_append, Option.or_assoc]
    congr 1
    cases hl : l.any fun c => decide (key c = k) with
    | true => simp [hl]
    | false => simp [hl]

/-- What relations built from none find is what the lists of the nodes have last. -/
theorem lookUp_eq (hroot : (h.graph g).parentGraph = none) {r : RefRelations}
    {address : NodeId → Nat} (hr : relate h x address fuel g nodes {} = (r, none)) :
    (∀ key, lookUpRefRelations address r key = (refFamily h x address g nodes).look (keyOf address key)) ∧
      ∀ w ∈ nodes, ∀ t ∈ ties h x g w, t.1 < (refLists h x g w).length ∧ t.2 < (refLists h x g w).length := by
  unfold relate at hr
  cases hn : relateNodes h x fuel g nodes {} with
  | mk r₁ fault =>
    cases fault with
    | some fault => simp [hn] at hr
    | none =>
      simp only [hn] at hr
      obtain rfl := (Prod.mk.inj hr).1
      obtain ⟨htable, hvalues, hbounds⟩ := relateNodes_spec hroot hn
      refine ⟨fun key => ?_, hbounds⟩
      unfold lookUpRefRelations buildLookUpTables
      simp only
      have hflat : ∀ (t : OrderedMap String (List RefCell)), r₁.values.foldl (fun t val =>
          val.foldl (fun t ele => ele.foldl (fun t c => t.assign (keyOf address c) ele) t) t) t =
          r₁.values.flatten.foldl (fun t ele => ele.foldl (fun t c => t.assign (keyOf address c) ele) t) t :=
        fun t => foldl_flatten.symm
      rw [hflat, find_table, hvalues, htable]
      change ((List.find? _ _).or none).getD [] = _
      rw [Option.or_none]
      rfl

end RefListsAux

end Metadef
