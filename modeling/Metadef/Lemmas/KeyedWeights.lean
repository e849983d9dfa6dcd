import Metadef.Lemmas.NewConsts
import Metadef.Theorems.LinkSymmetry

/-!
# Weights by key

A key of `SetWeights` either has its weight written to the node that feeds the input, or a new constant linked to it.
-/

namespace Metadef

open LinkListsAux List Heap

namespace OpDescUtils

/-- The output that feeds the input a key names. -/
def keySource (h : Heap) (node : NodeId) (key : Int32) : Option AnchorId :=
  (Node.getInDataAnchor h node key.toInt).bind (InDataAnchor.getPeerOutAnchor h)

/-- The descriptor of the node that feeds the input a key names. -/
def keyOp (h : Heap) (node : NodeId) (key : Int32) : Option OpId := (keySource h node key).map fun out => (h.node (h.owner out)).op

/-- The descriptors the weights of a map go to. -/
def keyWrites (h : Heap) (node : NodeId) (map : List (Int32 × Tensor)) : List (OpId × Tensor) :=
  map.filterMap fun e => (keyOp h node e.1).map fun o => (o, e.2)

/-- The descriptor of a node after an input for a new constant was entered. -/
def takeInput (op : OpDesc) (pair : Int32 × Tensor) : Option OpDesc :=
  let r := op.addInputDescAt pair.1.toUInt32.toNat pair.2.tensorDesc
  if r.1 then some r.2 else none

end OpDescUtils

namespace KeyedWeightsAux

open Cmd OpDescUtils NewConstsAux WrittenWeightsAux

variable {tid : Nat} {s u : WeightHeap} {n : NodeId} {k : Int32} {t : Tensor} {a out : AnchorId} {g : GraphId}

/-! ## Keys -/

/-- The input a key names. -/
theorem getInDataAnchor_eq_some {h : Heap} : Node.getInDataAnchor h n k.toInt = some a ↔
    0 ≤ k.toInt ∧ (h.node n).inDataAnchors[k.toUInt32.toNat]? = some a := by
  unfold Node.getInDataAnchor
  by_cases hk : k.toInt < 0
  · rw [if_pos hk]
    exact iff_of_false nofun fun h => absurd h.1 (Int.not_le.mpr hk)
  · have hle : 0 ≤ k.toInt := Int.not_lt.mp hk
    have hnat : k.toUInt32.toNat = k.toInt.toNat := by
      have := Int32.toNat_toUInt32_of_le (x := k) (by simpa [Int32.le_iff_toInt_le] using hle)
      rw [this]
      rfl
    rw [if_neg hk, hnat]
    exact ⟨fun h => ⟨hle, h⟩, fun h => h.2⟩

/-- Keys that name one input are one. -/
theorem key_inj (hs : s.heap.Sound) (hn : n < s.heap.nodeCount) {k' : Int32} (hk : Node.getInDataAnchor s.heap n k.toInt = some a)
    (hk' : Node.getInDataAnchor s.heap n k'.toInt = some a) : k = k' := by
  have hidx := hs.laid.idx n hn .inData rfl _ a (getInDataAnchor_eq_some.mp hk).2
  have hidx' := hs.laid.idx n hn .inData rfl _ a (getInDataAnchor_eq_some.mp hk').2
  have heq : k.toUInt32.toNat = k'.toUInt32.toNat := Int.ofNat_inj.mp (hidx.symm.trans hidx')
  cases k
  cases k'
  exact congrArg Int32.ofUInt32 (UInt32.toNat_inj.mp heq)

/-! ## One key -/

/-- A node that feeds the input has the weight written to it, whatever its type is. -/
theorem setWeightAt_of_source (hk : keySource s.heap n k = some out) :
    setWeightAt tid n (k, some t) s = some (true, s.written [((s.heap.node (s.heap.owner out)).op, t)]) := by
  unfold keySource at hk
  simp only [setWeightAt, get_bind_apply, hk]
  rw [bind_of_eq (setWeightsOf_eq _ _ _)]
  rfl

/-- A constant is put into the graph of the node and linked to the input. -/
theorem setWeightAt_of_graph (hs : s.heap.Sound) (hk : keySource s.heap n k = none) (hg : (s.heap.node n).ownerGraph = some g)
    (tid : Nat) (t : Tensor) : ∃ u out, ConstAdded s t u out ∧ setWeightAt tid n (k, some t) s =
      WeightHeap.onHeap (Node.addLinkFromAt n k.toUInt32.toNat (some s.heap.nodeCount)) u := by
  have hmade : (constMade tid t s).heap.node n = s.heap.node n := rfl
  obtain ⟨u, out, hu, hadd⟩ := addOpNodeFront_constMade hs tid t g
  refine ⟨u, out, hadd, ?_⟩
  unfold keySource at hk
  simp only [setWeightAt, get_bind_apply, hk]
  rw [bind_of_eq (createConstOp_eq tid t s)]
  simp only [get_bind_apply, hmade, hg]
  rw [bind_of_eq hu]

/-! ## A new constant -/

/-- Taking an input does not change the type. -/
theorem addInputDescAt_type (op : OpDesc) (i : Nat) (d : GeTensorDesc) : (op.addInputDescAt i d).2.getType = op.getType := by
  unfold OpDesc.addInputDescAt OpDesc.addInputDesc OpDesc.addInputDescNamed OpDesc.updateInputDesc OpDesc.updateInputDescAt
  repeat' split
  all_goals rfl

/-- What is left when an input that has no link is fed by a new constant: the constant is the last node, its descriptor the last one. -/
structure KeyFed (u : WeightHeap) (n : NodeId) (e : Int32 × Tensor) (a : AnchorId) (v : WeightHeap) (out : AnchorId) : Prop where
  sound : v.heap.Sound
  opCount : v.heap.opCount = u.heap.opCount + 1
  nodeCount : v.heap.nodeCount = u.heap.nodeCount + 1
  anchorCount : u.heap.anchorCount ≤ v.heap.anchorCount
  nodes : ∀ m < u.heap.nodeCount, v.heap.node m = u.heap.node m
  owners : ∀ b < u.heap.anchorCount, v.heap.owner b = u.heap.owner b
  kinds : ∀ b < u.heap.anchorCount, v.heap.kind b = u.heap.kind b
  peers : ∀ b < u.heap.anchorCount, b ≠ a → v.heap.peers b = u.heap.peers b
  types : ∀ o < u.heap.opCount, (v.heap.op o).getType = (u.heap.op o).getType
  weights : ∀ o < u.heap.opCount, v.weight o = u.weight o
  desc : takeInput (u.heap.desc n) e = some (v.heap.desc n)
  linked : v.heap.peers a = [out]
  fresh : u.heap.anchorCount ≤ out
  made : out < v.heap.anchorCount
  kind : v.heap.kind out = .outData
  owner : v.heap.owner out = u.heap.nodeCount
  op : (v.heap.node u.heap.nodeCount).op = u.heap.opCount
  type : (v.heap.op u.heap.opCount).getType = "Const"
  weight : v.weight u.heap.opCount = .tensor e.2

/-- An input without a link is fed by a new constant when the descriptor of the node takes it. -/
theorem setWeightAt_feeds (hs : s.heap.Sound) (hn : n < s.heap.nodeCount) (ho : (s.heap.node n).op < s.heap.opCount)
    (ha : Node.getInDataAnchor s.heap n k.toInt = some a) (hfree : s.heap.peers a = []) (hg : (s.heap.node n).ownerGraph = some g)
    (tid : Nat) (t : Tensor) : ∃ ok v, setWeightAt tid n (k, some t) s = some (ok, v) ∧
      (ok = true ↔ (takeInput (s.heap.desc n) (k, t)).isSome) ∧ (ok = true → ∃ out, KeyFed s n (k, t) a v out) := by
  have hsource : keySource s.heap n k = none := by
    rw [keySource, ha, Option.bind_some, InDataAnchor.getPeerOutAnchor, hfree]
  obtain ⟨u, out, hadd, hrun⟩ := setWeightAt_of_graph hs hsource hg tid t
  have hat : (u.heap.node n).inDataAnchors[k.toUInt32.toNat]? = some a := by
    rw [hadd.nodes n hn]
    exact (getInDataAnchor_eq_some.mp ha).2
  have hdesc : u.heap.desc n = s.heap.desc n := by
    rw [Heap.desc, hadd.nodes n hn, hadd.ops _ ho]
    rfl
  have hconst : (u.heap.desc s.heap.nodeCount).getOutputDesc 0 = t.tensorDesc := by
    rw [Heap.desc, hadd.op, hadd.outputDesc]
  obtain ⟨r, hr⟩ : ∃ r, r = (s.heap.desc n).addInputDescAt k.toUInt32.toNat t.tensorDesc := ⟨_, rfl⟩
  have htakes : takeInput (s.heap.desc n) (k, t) = if r.1 then some r.2 else none := by rw [hr]; rfl
  have hlink := addLinkFromAt_spec (c := s.heap.nodeCount) hadd.outs hat (r := r) (by rw [hdesc, hconst, hr])
  refine ⟨r.1, _, hrun.trans (onHeap_apply hlink), ?_, fun hok => ⟨out, ?_⟩⟩
  · rw [htakes]
    cases r.1 <;> simp
  · have hfree' : u.heap.peers a = [] := by rw [hadd.peers, hfree]
    have hmem : a ∈ s.heap.anchorsOf n .inData := mem_of_getElem? (getInDataAnchor_eq_some.mp ha).2
    have hlt : a < s.heap.anchorCount := hs.laid.made n hn _ a hmem
    have hnew : s.heap.nodeCount < u.heap.nodeCount := by rw [hadd.nodeCount]; exact Nat.lt_succ_self _
    have hout : out ∈ u.heap.anchorsOf s.heap.nodeCount .outData := by
      rw [Heap.anchorsOf, hadd.outs]
      exact mem_singleton_self out
    have hne : out ≠ a := Nat.ne_of_gt (Nat.lt_of_lt_of_le hlt hadd.fresh)
    -- the node comes first among the descriptors that were there
    have hop : (u.heap.node n).op = (s.heap.node n).op := by rw [hadd.nodes n hn]
    have hopne : s.heap.opCount ≠ (u.heap.node n).op := by rw [hop]; exact Nat.ne_of_gt ho
    have hsame := sameLayout_linked (u.heap.setOp (u.heap.node n).op r.2) out a
    rw [if_pos ⟨hok, hfree'⟩]
    have hpeers : ∀ b, (u.heap.setOp (u.heap.node n).op r.2).peers b = s.heap.peers b := fun b => by
      show u.heap.peers b = s.heap.peers b
      rw [hadd.peers]
    exact
      { sound := (hadd.sound.setOp _ _).linked (hadd.sound.laid.held hnew hout)
          (hadd.sound.laid.held (Nat.lt_trans hn hnew) (k := .inData) (mem_of_getElem? hat))
        opCount := hadd.opCount
        nodeCount := hadd.nodeCount
        anchorCount := hadd.anchorCount
        nodes := hadd.nodes
        owners := fun b hb => (hsame.owner b).trans (congrArg Anchor.ownerNode (hadd.anchor b hb))
        kinds := fun b hb => (hsame.kind b).trans (congrArg Anchor.kind (hadd.anchor b hb))
        peers := fun b hb hba => by
          have hbo : b ≠ out := Nat.ne_of_lt (Nat.lt_of_lt_of_le hb hadd.fresh)
          exact (linked_peers_of_ne hbo hba).trans (hpeers b)
        types := fun o hlt => by
          show ((u.heap.setOp (u.heap.node n).op r.2).op o).getType = (s.heap.op o).getType
          rw [setOp_op]
          split
          · rename_i he
            rw [hr, addInputDescAt_type, he, hop]
            rfl
          · rw [hadd.ops o hlt]
        weights := hadd.weights
        desc := by
          show _ = some ((u.heap.setOp (u.heap.node n).op r.2).op (u.heap.node n).op)
          rw [htakes, if_pos hok, setOp_op, if_pos rfl]
        linked := by
          rw [linked_peers_snd hne, hpeers, hfree, nil_append]
        fresh := hadd.fresh
        made := hadd.sound.laid.made _ hnew _ out hout
        kind := (hsame.kind out).trans (hadd.sound.laid.kind _ hnew _ out hout)
        owner := (hsame.owner out).trans (hadd.sound.laid.owner _ hnew _ out hout)
        op := hadd.op
        type := by
          show ((u.heap.setOp (u.heap.node n).op r.2).op s.heap.opCount).getType = "Const"
          rw [setOp_op, if_neg hopne, hadd.type]
        weight := hadd.weight }

end KeyedWeightsAux

end Metadef
