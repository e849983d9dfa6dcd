import Metadef.Lemmas.OperatorCopies

/-!
# Copying a graph keeps its links

Links are made anew between the copies of operators, from the name of the source alone. The theorem says which graphs keep their
links: those whose every source has one output, which the link is from.
-/

namespace Metadef

open Cmd GraphUtils OpDescUtils OrderedMap

/-- The name a copy of a descriptor has for its first output. -/
def OpDesc.copiedOutputName (op : OpDesc) : String := { op with outputNameIdx := op.copiedOutputNames }.getOutputNameByIndex 0

namespace GraphImpl

variable (s t : FrontEnd) (g g' : GraphImpl)

/-- An input of an operator of a graph is linked to an output of another. -/
def Linked (b n a m : String) : Prop :=
  ∃ i j io, g.opList.find b = some i ∧ g.opList.find a = some j ∧ (s.impl i).inputLink.find n = some io ∧ io.owner = some j ∧
    io.name = m

/-- An operator of a graph is controlled by another. -/
def Controlled (b a : String) : Prop :=
  ∃ i j, g.opList.find b = some i ∧ g.opList.find a = some j ∧ j ∈ (s.impl i).controlInputLink

/-- The operators of a graph are listed by their names, no name twice, and all links stay among them. They, their descriptors and
nodes and the graph of nodes were made before. -/
structure Listed : Prop where
  once : (g.opList.map Prod.fst).Nodup
  named : ∀ e ∈ g.opList, implName s e.2 = e.1
  inputOnce : ∀ e ∈ g.opList, ((s.impl e.2).inputLink.map Prod.fst).Nodup
  inside : ∀ e ∈ g.opList, ∀ link ∈ (s.impl e.2).inputLink, ∃ a, link.2.owner = some a ∧ ∃ name, (name, a) ∈ g.opList
  controlInside : ∀ e ∈ g.opList, ∀ a ∈ (s.impl e.2).controlInputLink, ∃ name, (name, a) ∈ g.opList
  made : ∀ e ∈ g.opList, e.2 < s.implCount
  descs : ∀ e ∈ g.opList, ∀ o ∈ (s.impl e.2).opDesc, o < s.heap.opCount
  nodes : ∀ e ∈ g.opList, ∀ n ∈ (s.impl e.2).node, n < s.heap.nodeCount
  graph : ∀ c ∈ g.computeGraph, c < s.heap.graphCount ∧
    ∀ n ∈ (s.heap.graph c).nodes, n < s.heap.nodeCount ∧ (s.heap.node n).op < s.heap.opCount

/-- The operators of a copy are linked as those of the graph, to none outside the copy, and each entry of an output is the other
side of a link. -/
structure KeepsLinks : Prop where
  linked : ∀ b n a m, g'.Linked t b n a m ↔ g.Linked s b n a m
  inside : ∀ b i n io, g'.opList.find b = some i → (t.impl i).inputLink.find n = some io → ∃ a m, g'.Linked t b n a m
  mirrored : ∀ a j m e, g'.opList.find a = some j → t.operators.Feeds j m e →
    ∃ b i, g'.opList.find b = some i ∧ e.owner = some i ∧ g'.Linked t b e.name a m
  controlled : ∀ b a, g'.Controlled t b a ↔ g.Controlled s b a
  controlInside : ∀ b i j, g'.opList.find b = some i → j ∈ (t.impl i).controlInputLink → ∃ a, g'.opList.find a = some j
  controlMirrored : ∀ a j i, g'.opList.find a = some j → i ∈ (t.impl j).controlOutputLink →
    ∃ b, g'.opList.find b = some i ∧ j ∈ (t.impl i).controlInputLink

/-- A link can be made anew from the name of its source: the source has one output, and its copy has the name of the link for
it. Neither end is without a name. -/
def Relinks (n a m : String) : Prop :=
  n ≠ "" ∧ m ≠ "" ∧ ∃ j o, g.opList.find a = some j ∧ (s.impl j).opDesc = some o ∧ (s.heap.op o).outputsDesc.length = 1 ∧
    (s.heap.op o).copiedOutputName = m

/-- Every link can be made anew. -/
def Relinkable : Prop := ∀ b n a m, g.Linked s b n a m → g.Relinks s n a m

end GraphImpl

namespace CopiesAux

variable {s v t : FrontEnd} {g g' : GraphImpl} {b n a m : String}

theorem find_of_listed (hl : g.Listed s) {i : ImplId} (hi : (a, i) ∈ g.opList) : g.opList.find a = some i :=
  find_of_mem hl.once hi

/-- The operators of a graph whose operators are listed are closed under links. -/
theorem closed_of_listed (hl : g.Listed s) : Closed s g.opList where
  once := hl.once
  made e he := ⟨hl.made e he, hl.descs e he⟩
  inputOnce := hl.inputOnce
  inside e he link hlink a ha := by
    obtain ⟨a', ha', hmem⟩ := hl.inside e he link hlink
    obtain rfl := Option.some.inj (ha'.symm.trans ha)
    exact hmem
  controlInside := hl.controlInside

/-- The operator of a name, and the copy of it with the copy of the descriptor. -/
theorem copy_of_find (hl : g.Listed s) (hc : OperatorsCopied s.heap s v g.opList g'.opList) {j' : ImplId}
    (hj' : g'.opList.find a = some j') : ∃ j o o', g.opList.find a = some j ∧ (s.impl j).opDesc = some o ∧
      (v.impl j').opDesc = some o' ∧ (s.heap.op o).IsCopy (v.heap.op o') := by
  obtain ⟨-, -, j, o, o', hmem, ho, hmembers, -, hcopy⟩ := hc.copy a j' hj'
  exact ⟨j, o, o', find_of_listed hl hmem, ho, congrArg OperatorImpl.opDesc hmembers, hcopy⟩

/-- The sources of links go by the names they are listed under. -/
theorem name_of_mem (hl : g.Listed s) {j : ImplId} (hj : ∃ name, (name, j) ∈ g.opList) :
    g.opList.find (implName s j) = some j := by
  obtain ⟨name, hmem⟩ := hj
  rw [hl.named (name, j) hmem]
  exact find_of_listed hl hmem

/-- A link between copies is one that can be made from the source of a link. -/
theorem linked_copy_iff (hl : g.Listed s) (hc : OperatorsCopied s.heap s v g.opList g'.opList)
    (hr : Relinked s v t g'.opList (inputLinks s g.opList) (controlInputLinks s g.opList)) :
    g'.Linked t b n a m ↔ (∃ m₀, g.Linked s b n a m₀) ∧ g.Relinks s n a m := by
  constructor
  · rintro ⟨i', j', io, hi', hj', hio, howner, rfl⟩
    obtain ⟨io₀, hdone, j, k', o', hj, hk', ho', ⟨hn, hone, hfirst⟩, rfl⟩ := hr.sound b i' n io hi' hio
    obtain ⟨e, he, hlink⟩ := List.mem_flatMap.mp hdone
    obtain ⟨link, hmem, hsame⟩ := List.mem_map.mp hlink
    obtain ⟨rfl, rfl⟩ := Prod.mk.inj hsame
    obtain rfl : k' = j' := Option.some.inj howner
    obtain ⟨j₀, hj₀, hlisted⟩ := hl.inside e he _ hmem
    obtain rfl := Option.some.inj (hj₀.symm.trans hj)
    have hname := name_of_mem hl hlisted
    obtain rfl := hc.once _ a k' hk' hj'
    obtain ⟨k, o, p', hk, ho, hp', hcopy⟩ := copy_of_find hl hc hk'
    obtain rfl := Option.some.inj (hp'.symm.trans ho')
    refine ⟨⟨io₀.name, e.2, j₀, io₀, find_of_listed hl he, hname, find_of_mem (hl.inputOnce e he) hmem, hj, rfl⟩,
      hn, hfirst, k, o, hk, ho, hcopy.outputsDesc ▸ hone, ?_⟩
    simp only [OpDesc.copiedOutputName, OpDesc.getOutputNameByIndex, hcopy.outputNameIdx]
  · rintro ⟨⟨m₀, i, j, io, hi, hj, hio, howner, rfl⟩, hn, hm, k, o, hk, ho, hone, hfirst⟩
    obtain rfl := Option.some.inj (hj.symm.trans hk)
    have hlisted := mem_of_find hj
    obtain ⟨i', hi'⟩ := hc.all (b, i) (mem_of_find hi)
    obtain ⟨j', hj'⟩ := hc.all (a, j) hlisted
    obtain ⟨k, p, o', hk', hp, ho', hcopy⟩ := copy_of_find hl hc hj'
    obtain rfl := Option.some.inj (hj.symm.trans hk')
    obtain rfl := Option.some.inj (ho.symm.trans hp)
    have hname : (v.heap.op o').getOutputNameByIndex 0 = m := by
      rw [← hfirst]
      simp only [OpDesc.copiedOutputName, OpDesc.getOutputNameByIndex, hcopy.outputNameIdx]
    have hdone : (b, n, io) ∈ inputLinks s g.opList :=
      List.mem_flatMap.mpr ⟨(b, i), mem_of_find hi, List.mem_map.mpr ⟨(n, io), mem_of_find hio, rfl⟩⟩
    have hmakes : Makes s v g'.opList n io { name := m, index := 0, owner := some j' } := by
      refine ⟨j, j', o', howner, ?_, ho', ⟨hn, (congrArg List.length hcopy.outputsDesc).trans hone, ?_⟩, by rw [hname]⟩
      · rw [hl.named (a, j) hlisted]
        exact hj'
      · exact hname.symm ▸ hm
    exact ⟨i', j', _, hi', hj', hr.complete b i' n io _ hdone hi' hmakes, rfl, rfl⟩

/-- A control link between copies is one between the operators. -/
theorem controlled_copy_iff (hl : g.Listed s) (hc : OperatorsCopied s.heap s v g.opList g'.opList)
    (hr : Relinked s v t g'.opList (inputLinks s g.opList) (controlInputLinks s g.opList)) :
    g'.Controlled t b a ↔ g.Controlled s b a := by
  constructor
  · rintro ⟨i', j', hi', hj', hmem⟩
    obtain ⟨j, hdone, hj⟩ := (hr.control b i' j' hi').mp hmem
    obtain ⟨e, he, hlink⟩ := List.mem_flatMap.mp hdone
    obtain ⟨j₀, hmem₀, hsame⟩ := List.mem_map.mp hlink
    obtain ⟨rfl, rfl⟩ := Prod.mk.inj hsame
    obtain rfl := hc.once _ a j' hj hj'
    exact ⟨e.2, j₀, find_of_listed hl he, name_of_mem hl (hl.controlInside e he j₀ hmem₀), hmem₀⟩
  · rintro ⟨i, j, hi, hj, hmem⟩
    have hlisted := mem_of_find hj
    obtain ⟨i', hi'⟩ := hc.all (b, i) (mem_of_find hi)
    obtain ⟨j', hj'⟩ := hc.all (a, j) hlisted
    refine ⟨i', j', hi', hj', (hr.control b i' j' hi').mpr ⟨j, ?_, ?_⟩⟩
    · exact List.mem_flatMap.mpr ⟨(b, i), mem_of_find hi, List.mem_map.mpr ⟨j, hmem, rfl⟩⟩
    · rw [hl.named (a, j) hlisted]
      exact hj'

/-- A new graph changes no object there was. -/
theorem makeGraph_kept {h u : Heap} {name : String} {new : GraphId} (hr : ModelSerializeImp.makeGraph name h = some (new, u)) :
    u.opCount = h.opCount ∧ u.nodeCount = h.nodeCount ∧ u.op = h.op ∧ u.node = h.node ∧
      ∀ c < h.graphCount, u.graph c = h.graph c := by
  obtain ⟨-, rfl⟩ := of_return hr
  exact ⟨rfl, rfl, rfl, rfl, fun c hc => by rw [Heap.setGraph_graph, if_neg (Nat.ne_of_lt hc)]⟩

/-- What a copy leaves: the operators copied, then their links made. -/
theorem copyGraph_spec {fuel : Nat} {dstName : String} (hl : g.Listed s)
    (hr : copyGraph fuel g dstName s = some (some g', t)) : ∃ v, OperatorsCopied s.heap s v g.opList g'.opList ∧
      Relinked s v t g'.opList (inputLinks s g.opList) (controlInputLinks s g.opList) := by
  unfold copyGraph at hr
  obtain ⟨new, s₁, hs₁, hr⟩ := bind_eq_some.mp hr
  obtain ⟨h₁, hmake, rfl⟩ := onHeap_eq_some.mp hs₁
  obtain ⟨hops, hnodes, hop, hnode, hgraph⟩ := makeGraph_kept hmake
  cases hsrc : g.computeGraph with
  | none => simp [hsrc] at hr
  | some src =>
    simp only [hsrc] at hr
    obtain ⟨hlt, hmade⟩ := hl.graph src hsrc
    obtain ⟨r, s₂, hs₂, hr⟩ := bind_eq_some.mp hr
    obtain ⟨h₂, hcopied, rfl⟩ := onHeap_eq_some.mp hs₂
    cases r with
    | none => simp at hr
    | some r =>
      obtain ⟨copies, depth⟩ := r
      obtain ⟨hkept, hgood⟩ := copyComputeGraph_good (fun n hn => by
        rw [hgraph src hlt] at hn
        rw [hnode, hnodes, hops]
        exact hmade n hn) hcopied
      obtain ⟨r, v, hv, hr⟩ := bind_eq_some.mp hr
      cases r with
      | none => simp at hr
      | some dst =>
        obtain ⟨ok, w, hw, hr⟩ := bind_eq_some.mp hr
        cases ok with
        | false => simp at hr
        | true =>
          obtain ⟨rfl, rfl⟩ : _ = g' ∧ w = t := by simpa using hr
          have hbase : s.heap.OutputsKept h₂ := OutputsKept.trans (OutputsKept.of_same hops hnodes hop hnode) hkept
          have hcopies : Good s.heap h₂ copies :=
            ⟨fun n => by rw [Heap.desc, ← hop, ← hnode]; exact hgood.nodes n, fun o => by rw [← hop]; exact hgood.descs o⟩
          have hstart : OperatorsCopied s.heap s { s with heap := h₂ } [] [] :=
            ⟨hbase, Nat.le_refl _, fun _ _ => rfl, fun _ _ hm => by simp [OrderedMap.find] at hm, fun _ h => absurd h List.not_mem_nil,
              fun _ _ _ hm => by simp [OrderedMap.find] at hm⟩
          have hc := copyOperators_spec g.opList hstart hcopies hl.once
            (fun e he => ⟨hl.made e he, hl.descs e he, hl.nodes e he⟩) hv
          exact ⟨v, hc, copyOperatorLinks_relinked (closed_of_listed hl) hc hw⟩

end CopiesAux

open CopiesAux

/-- A copy of a graph keeps the links of its operators exactly when each link can be made anew from the name of its source. -/
theorem copyGraph_keepsLinks_iff {s t : FrontEnd} {g g' : GraphImpl} {fuel : Nat} {dstName : String} (hl : g.Listed s)
    (hr : copyGraph fuel g dstName s = some (some g', t)) : g.KeepsLinks s t g' ↔ g.Relinkable s := by
  obtain ⟨v, hc, hlinks⟩ := copyGraph_spec hl hr
  constructor
  · intro h b n a m hlinked
    exact ((linked_copy_iff hl hc hlinks).mp ((h.linked b n a m).mpr hlinked)).2
  · intro h
    refine ⟨fun b n a m => ?_, fun b i n io hb hn => ?_, fun a j m e ha he => ?_, fun b a => controlled_copy_iff hl hc hlinks,
      fun b i j hb hj => ?_, fun a j i ha hi => (hlinks.controlOut a j i ha).mp hi⟩
    · rw [linked_copy_iff hl hc hlinks]
      constructor
      · rintro ⟨⟨m₀, hlinked⟩, -, -, j, o, hj, ho, -, hm⟩
        obtain ⟨-, -, j₀, o₀, hj₀, ho₀, -, hm₀⟩ := h b n a m₀ hlinked
        obtain rfl := Option.some.inj (hj.symm.trans hj₀)
        obtain rfl := Option.some.inj (ho.symm.trans ho₀)
        exact hm.symm.trans hm₀ ▸ hlinked
      · exact fun hlinked => ⟨⟨m, hlinked⟩, h b n a m hlinked⟩
    · obtain ⟨io₀, -, j, j', o, -, hj', -, -, rfl⟩ := hlinks.sound b i n io hb hn
      exact ⟨_, _, i, j', _, hb, hj', hn, rfl, rfl⟩
    · obtain ⟨b, i, new, hb, howner, hn, hnew, hm⟩ := hlinks.mirrored a j m e ha he
      exact ⟨b, i, hb, howner, i, j, new, hb, ha, hn, hnew, hm⟩
    · obtain ⟨j₀, -, hj₀⟩ := (hlinks.control b i j hb).mp hj
      exact ⟨_, hj₀⟩

namespace GraphCopyWitness

/-- An operator with some outputs and one with an input: both are nodes of a graph, with an edge from an output to the input. -/
def nodes (outputs : List String) (index : Nat) : Cmd Heap Bool := do
  modify (LinkCall.makeOp { opDef := { name := "a", type := "Data" }, outputsDesc := outputs.map fun _ => {},
                            outputNameIdx := outputs.zipIdx })
  modify (LinkCall.makeOp { opDef := { name := "b", type := "Relu" }, inputsDesc := [{}], inputNameIdx := [("x", 0)] })
  let graph ← ModelSerializeImp.makeGraph "g"
  let _ ← ComputeGraph.addOpNode graph (some 0)
  let _ ← ComputeGraph.addOpNode graph (some 1)
  let h ← get
  addEdge (Node.getOutDataAnchor h 0 index) (Node.getInDataAnchor h 1 0)

/-- The operators are linked as their nodes are. -/
def network (outputs : List String) (name : String) (index : Nat) : Cmd FrontEnd Bool := do
  let _ ← FrontEnd.onHeap (nodes outputs index)
  let _ ← FrontEnd.makeImpl { opDesc := some 0 }
  let _ ← FrontEnd.makeImpl { opDesc := some 1 }
  FrontEnd.onOperators (OperatorImpl.setInputImplHandler 1 "x" (some { name, index, owner := some 0 }))

/-- The operator of one output. -/
def one : FrontEnd := ((network ["y"] "y" 0 {}).map Prod.snd).getD {}

/-- The operator of two outputs, with the link from the second. -/
def two : FrontEnd := ((network ["y", "z"] "z" 1 {}).map Prod.snd).getD {}

def graph : GraphImpl := { name := "g", computeGraph := some 0, opList := [("a", 0), ("b", 1)] }

/-- The checks that list the operators of the graph. -/
theorem listed_of_checks {s : FrontEnd} (hnamed : ∀ e ∈ graph.opList, implName s e.2 = e.1)
    (hinput : ∀ e ∈ graph.opList, ((s.impl e.2).inputLink.map Prod.fst).Nodup ∧ (s.impl e.2).controlInputLink = [] ∧
      ∀ link ∈ (s.impl e.2).inputLink, ∃ a ∈ graph.opList, link.2.owner = some a.2)
    (hmade : ∀ e ∈ graph.opList, e.2 < s.implCount ∧ (∀ o ∈ (s.impl e.2).opDesc, o < s.heap.opCount) ∧ (s.impl e.2).node = none)
    (hgraph : 0 < s.heap.graphCount ∧
      ∀ n ∈ (s.heap.graph 0).nodes, n < s.heap.nodeCount ∧ (s.heap.node n).op < s.heap.opCount) : graph.Listed s where
  once := by decide
  named := hnamed
  inputOnce e he := (hinput e he).1
  inside e he link hlink :=
    let ⟨a, ha, howner⟩ := (hinput e he).2.2 link hlink
    ⟨a.2, howner, a.1, ha⟩
  controlInside e he a ha := by
    rw [(hinput e he).2.1] at ha
    cases ha
  made e he := (hmade e he).1
  descs e he := (hmade e he).2.1
  nodes e he n hn := by
    rw [(hmade e he).2.2] at hn
    cases hn
  graph c hc := by
    obtain rfl : 0 = c := by simpa [graph] using hc
    exact hgraph

theorem listed_one : graph.Listed one :=
  listed_of_checks (by decide +kernel) (by decide +kernel) (by decide +kernel) (by decide +kernel)

theorem listed_two : graph.Listed two :=
  listed_of_checks (by decide +kernel) (by decide +kernel) (by decide +kernel) (by decide +kernel)

/-- A run that is checked to make a copy makes one. -/
theorem exists_copy {s : FrontEnd} {p : GraphImpl → FrontEnd → Bool}
    (h : (copyGraph 0 graph "" s).any (fun r => r.1.any fun g' => p g' r.2) = true) :
    ∃ g' t, copyGraph 0 graph "" s = some (some g', t) ∧ p g' t = true := by
  obtain ⟨⟨r, t⟩, hr, h⟩ := (Option.any_eq_true _ _).mp h
  obtain ⟨g', rfl, hp⟩ := (Option.any_eq_true _ _).mp h
  exact ⟨g', t, hr, hp⟩

theorem copyGraph_keepsLinks_iff_one :
    ∃ g' t, copyGraph 0 graph "" one = some (some g', t) ∧ (graph.KeepsLinks one t g' ↔ graph.Relinkable one) := by
  obtain ⟨g', t, hr, -⟩ := exists_copy (s := one) (p := fun _ _ => true) (by decide +kernel)
  exact ⟨g', t, hr, copyGraph_keepsLinks_iff listed_one hr⟩

/-- A graph, whose links all have both sides, is copied with success and without the link from a second output. -/
theorem copyGraph_keepsLinks_false :
    ¬ ∀ (s t : FrontEnd) (g g' : GraphImpl) (fuel : Nat) (dstName : String), g.Listed s →
      (∀ e ∈ g.opList, ∀ link ∈ (s.impl e.2).inputLink, ∀ a ∈ link.2.owner,
        ∃ dsts, (s.impl a).outputLinks.find link.2.name = some dsts ∧ ∃ d ∈ dsts, d.name = link.1 ∧ d.owner = some e.2) →
      copyGraph fuel g dstName s = some (some g', t) → g.KeepsLinks s t g' := by
  intro hall
  obtain ⟨g', t, hr, hlost⟩ := exists_copy (s := two) (p := fun g' t =>
    decide (∀ e ∈ g'.opList, (t.impl e.2).inputLink = [])) (by decide +kernel)
  have hkeeps := hall two t graph g' 0 "" listed_two ?_ hr
  · obtain ⟨i, j, io, hi, -, hio, -⟩ := (hkeeps.linked "b" "x" "a" "z").mpr
      ⟨1, 0, { name := "z", index := 1, owner := some 0 }, by decide, by decide, by decide +kernel, rfl, rfl⟩
    rw [of_decide_eq_true hlost ("b", i) (mem_of_find hi)] at hio
    cases hio
  · decide +kernel

end GraphCopyWitness

end Metadef
