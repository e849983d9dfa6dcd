import Metadef.ShapeRefiner

/-!
# Brushing the body of a loop

The outputs reached from inputs that vary should be brushed, and the inputs they feed. The node at the top of the stack is used after it
was taken off, which the language gives no meaning; so this is done exactly where there is no node to be refreshed. Where what was taken
off is still read, the first node that is put on the stack takes its place, and is marked as visited instead.
-/

namespace Metadef

open List Option Function

/-! ## What varies -/

namespace BodyRefresh

variable (h : Heap) (x : RefIndexes) (nodes : List NodeId)

/-- An output of a node that has a descriptor. -/
def IsOutput (node : NodeId) (a : AnchorId) : Prop :=
  a ∈ (h.node node).outDataAnchors ∧ (h.anchor a).idx.toNat < (h.desc node).outputsDesc.length

/-- An output feeds an input that has a descriptor. -/
def FeedsInput (a peer : AnchorId) : Prop :=
  peer ∈ OutDataAnchor.getPeerInDataAnchors h a ∧ (h.desc (h.owner peer)).mutableInputDesc (h.anchor peer).idx.toNat ≠ none

/-- A data edge leads from a node to another. -/
def LeadsTo (m n : NodeId) : Prop := ∃ a peer, IsOutput h m a ∧ FeedsInput h a peer ∧ h.owner peer = n

/-- A node is reached along data edges from a data node that varies. -/
def Varies (n : NodeId) : Prop := ∃ v ∈ varyingNodes h x nodes, Relation.ReflTransGen (LeadsTo h) v n

/-- A descriptor is that of an output of a node that is reached, or of an input that such an output feeds. -/
def OutputVaries (op : OpId) (idx : Nat) : Prop :=
  ∃ n a, Varies h x nodes n ∧ IsOutput h n a ∧ (h.node n).op = op ∧ (h.anchor a).idx.toNat = idx
def InputVaries (op : OpId) (idx : Nat) : Prop :=
  ∃ n a peer, Varies h x nodes n ∧ IsOutput h n a ∧ FeedsInput h a peer ∧ (h.node (h.owner peer)).op = op ∧
    (h.anchor peer).idx.toNat = idx

/-- What varies has a shape of unknown rank, and everything else the shape it had. -/
structure Brushed (before after : BodyShapes) : Prop where
  outputs : ∀ op idx, OutputVaries h x nodes op idx → after.output op idx = BodyShapes.unknownDimNumShape
  otherOutputs : ∀ op idx, ¬OutputVaries h x nodes op idx → after.output op idx = before.output op idx
  inputs : ∀ op idx, InputVaries h x nodes op idx → after.input op idx = BodyShapes.unknownDimNumShape
  otherInputs : ∀ op idx, ¬InputVaries h x nodes op idx → after.input op idx = before.input op idx

/-- The body of a loop is brushed, whatever is read of what was destroyed. -/
def BrushesVarying (fuel : Nat) (node : NodeId) (shapes : BodyShapes) : Prop :=
  ∀ ρ : DestroyedReads, ∃ turns after, reverseBrushWhileBodySubGraph h x ρ fuel turns node shapes = some (.success, after) ∧
    Brushed h x nodes shapes after

end BodyRefresh

namespace BrushedBodiesAux

open BodyRefresh

variable {h : Heap} {x : RefIndexes} {ρ : DestroyedReads} {s t : BodyRefresh}

/-! ## The stack -/

/-- The top of nodes that are pushed is the last. -/
theorem foldl_push (ns : List NodeId) (n : NodeId) (s : NodeStack) :
    let t := (ns ++ [n]).foldl NodeStack.push s
    t.size ≠ 0 ∧ t.slots t.top = .holds n := by
  simp [NodeStack.push, NodeStack.top]

/-- What was at the top when it was taken off is read as what is destroyed is. -/
theorem read_pop {s : NodeStack} {n : NodeId} (hn : s.slots s.top = .holds n) : s.pop.read ρ s.top = ρ n := by
  unfold NodeStack.pop NodeStack.read
  rw [hn]
  simp

theorem slots_push_of_lt {s : NodeStack} {n : NodeId} {k : Nat} (hk : k < s.size) : (s.push n).slots k = s.slots k :=
  update_of_ne (by omega) ..

/-- Every place in use holds a node. -/
def Full (s : NodeStack) : Prop := ∀ k < s.size, ∃ n, s.slots k = .holds n

theorem Full.push {s : NodeStack} {n : NodeId} (hs : Full s) : Full (s.push n) := by
  intro k hk
  by_cases hlt : k < s.size
  · rw [slots_push_of_lt hlt]
    exact hs k hlt
  · have heq : k = s.size := by
      have : k < s.size + 1 := hk
      omega
    exact ⟨n, by rw [heq]; exact update_self ..⟩

theorem Full.pop {s : NodeStack} (hs : Full s) : Full s.pop := by
  intro k hk
  have hlt : k < s.size - 1 := hk
  have hne : k ≠ s.top := by
    unfold NodeStack.top
    omega
  obtain ⟨n, hn⟩ := hs k (by omega)
  exact ⟨n, by rw [← hn]; exact update_of_ne hne ..⟩

theorem full_foldl_push (ns : List NodeId) {s : NodeStack} (hs : Full s) : Full (ns.foldl NodeStack.push s) := by
  induction ns generalizing s with
  | nil => exact hs
  | cons n ns ih => exact ih hs.push

/-! ## One turn -/

/-- Whether an input has a descriptor. -/
def hasDesc (h : Heap) (peer : AnchorId) : Bool := ((h.desc (h.owner peer)).mutableInputDesc (h.anchor peer).idx.toNat).isSome

/-- What brushing the inputs an output feeds leaves. The first of them is put where the stack ended. -/
structure PeersBrushed (h : Heap) (peers : List AnchorId) (s t : BodyRefresh) : Prop where
  outputs : t.shapes.output = s.shapes.output
  visited : t.visitedNodes = s.visitedNodes
  full : Full s.refreshNodes → Full t.refreshNodes
  size : s.refreshNodes.size ≤ t.refreshNodes.size
  below : ∀ k < s.refreshNodes.size, t.refreshNodes.slots k = s.refreshNodes.slots k
  first : ∀ p, peers.find? (hasDesc h) = some p → t.refreshNodes.slots s.refreshNodes.size = .holds (h.owner p)
  noFirst : peers.find? (hasDesc h) = none → t.refreshNodes.slots s.refreshNodes.size = s.refreshNodes.slots s.refreshNodes.size

theorem foldl_brushPeer (peers : List AnchorId) (s : BodyRefresh) : PeersBrushed h peers s (peers.foldl (brushPeer h) s) := by
  induction peers generalizing s with
  | nil => exact ⟨rfl, rfl, id, Nat.le_refl _, fun _ _ => rfl, nofun, fun _ => rfl⟩
  | cons p peers ih =>
    rw [foldl_cons]
    have hrest := ih (brushPeer h s p)
    cases hdesc : (h.desc (h.owner p)).mutableInputDesc (h.anchor p).idx.toNat with
    | none =>
      have hkeep : brushPeer h s p = s := by simp [brushPeer, hdesc]
      have hfind : (p :: peers).find? (hasDesc h) = peers.find? (hasDesc h) := find?_cons_of_neg (by simp [hasDesc, hdesc])
      rw [hkeep] at hrest ⊢
      exact ⟨hrest.outputs, hrest.visited, hrest.full, hrest.size, hrest.below, fun q hq => hrest.first q (hfind ▸ hq),
        fun hq => hrest.noFirst (hfind ▸ hq)⟩
    | some d =>
      have hfind : (p :: peers).find? (hasDesc h) = some p := find?_cons_of_pos (by simp [hasDesc, hdesc])
      have hput : brushPeer h s p = { s with
          shapes := s.shapes.brushInput (h.node (h.owner p)).op (h.anchor p).idx.toNat
          refreshNodes := s.refreshNodes.push (h.owner p) } := by simp [brushPeer, hdesc]
      rw [hput] at hrest ⊢
      have hsize : s.refreshNodes.size < (s.refreshNodes.push (h.owner p)).size := Nat.lt_succ_self _
      refine ⟨hrest.outputs, hrest.visited, fun hs => hrest.full hs.push, Nat.le_trans (Nat.le_of_lt hsize) hrest.size,
        fun k hk => ?_, fun q hq => ?_, fun hq => by simp [hfind] at hq⟩
      · exact (hrest.below k (Nat.lt_trans hk hsize)).trans (slots_push_of_lt hk)
      · obtain rfl : p = q := Option.some.inj (hfind.symm.trans hq)
        exact (hrest.below _ hsize).trans (update_self ..)

/-- What a turn leaves where what was destroyed is read as what it was, and nodes have one output at most. -/
structure Turned (h : Heap) (n : NodeId) (s t : BodyRefresh) : Prop where
  full : Full t.refreshNodes
  outputs : ∀ op, (n ∈ s.visitedNodes ∨ op ≠ (h.node n).op) → t.shapes.output op = s.shapes.output op
  visited : ∀ m ∈ s.visitedNodes, m ∈ t.visitedNodes
  first : n ∉ s.visitedNodes → ∀ a p, IsOutput h n a → (OutDataAnchor.getPeerInDataAnchors h a).find? (hasDesc h) = some p →
    h.owner p ∈ t.visitedNodes

theorem turn_kept {n : NodeId} (hone : (h.node n).outDataAnchors.length ≤ 1) (hs : Full s.refreshNodes)
    (htop : s.refreshNodes.slots s.refreshNodes.top = .holds n) : ∃ t, turn h some s = some t ∧ Turned h n s t := by
  have hread := read_pop (ρ := some) htop
  unfold turn
  simp only [hread, bind_eq_bind, bind_some]
  by_cases hvisited : n ∈ s.visitedNodes
  · rw [if_pos hvisited]
    exact ⟨_, rfl, hs.pop, fun _ _ => rfl, fun _ hm => hm, fun hn => absurd hvisited hn⟩
  · rw [if_neg hvisited]
    -- a turn that puts nothing on the stack marks the node itself
    have halone : (∀ a p, IsOutput h n a → (OutDataAnchor.getPeerInDataAnchors h a).find? (hasDesc h) ≠ some p) →
        Turned h n s { s with refreshNodes := s.refreshNodes.pop, visitedNodes := s.visitedNodes.insert n } := fun hnone =>
      ⟨hs.pop, fun _ _ => rfl, fun m hm => mem_insert_of_mem hm, fun _ a p ha hp => absurd hp (hnone a p ha)⟩
    cases hanchors : (h.node n).outDataAnchors with
    | nil =>
      simp only [foldlM_nil, hread, Option.pure_def, bind_some]
      exact ⟨_, rfl, halone fun a _ ha => absurd ha.1 (by simp [hanchors])⟩
    | cons a rest =>
      obtain rfl : rest = [] := by
        rw [hanchors] at hone
        exact length_eq_zero_iff.mp (Nat.le_zero.mp (Nat.le_of_succ_le_succ hone))
      have hmem : ∀ b, IsOutput h n b → b = a := fun b hb => by simpa [hanchors] using hb.1
      simp only [foldlM_cons, foldlM_nil, Option.pure_def, bind_eq_bind, bind_fun_some]
      unfold brushAnchor
      simp only [hread, bind_eq_bind, bind_some]
      by_cases hdesc : (h.desc n).outputsDesc.length ≤ (h.anchor a).idx.toNat
      · rw [if_pos hdesc]
        simp only [Option.pure_def, bind_some, hread]
        refine ⟨_, rfl, halone fun b _ hb => absurd hb.2 ?_⟩
        rw [hmem b hb]
        omega
      · rw [if_neg hdesc]
        have hpeers := foldl_brushPeer (h := h) (OutDataAnchor.getPeerInDataAnchors h a)
          { s with shapes := s.shapes.brushOutput (h.node n).op (h.anchor a).idx.toNat, refreshNodes := s.refreshNodes.pop }
        generalize (OutDataAnchor.getPeerInDataAnchors h a).foldl (brushPeer h) _ = t at hpeers
        have houtputs : ∀ op, (n ∈ s.visitedNodes ∨ op ≠ (h.node n).op) → t.shapes.output op = s.shapes.output op := by
          intro op hop
          rw [hpeers.outputs]
          exact update_of_ne (hop.resolve_left hvisited) ..
        have hvisit : t.visitedNodes = s.visitedNodes := hpeers.visited
        simp only [Option.pure_def, bind_some]
        cases hfirst : (OutDataAnchor.getPeerInDataAnchors h a).find? (hasDesc h) with
        | none =>
          have hslot : t.refreshNodes.read some s.refreshNodes.top = some n := by
            rw [← hread]
            unfold NodeStack.read
            rw [show t.refreshNodes.slots s.refreshNodes.top =
              s.refreshNodes.pop.slots s.refreshNodes.top from hpeers.noFirst hfirst]
          rw [hslot]
          refine ⟨_, rfl, hpeers.full hs.pop, houtputs, fun m hm => mem_insert_of_mem (hvisit ▸ hm), fun _ b p hb hp => ?_⟩
          rw [hmem b hb, hfirst] at hp
          cases hp
        | some q =>
          have hslot : t.refreshNodes.read some s.refreshNodes.top = some (h.owner q) := by
            unfold NodeStack.read
            rw [show t.refreshNodes.slots s.refreshNodes.top = .holds (h.owner q) from hpeers.first q hfirst]
          rw [hslot]
          refine ⟨_, rfl, hpeers.full hs.pop, houtputs, fun m hm => mem_insert_of_mem (hvisit ▸ hm), fun _ b p hb hp => ?_⟩
          rw [hmem b hb, hfirst] at hp
          obtain rfl := Option.some.inj hp
          exact mem_insert_self

/-- A node that is marked as visited is brushed in no turn that follows. -/
theorem refresh_visited (hone : ∀ n, (h.node n).outDataAnchors.length ≤ 1) (hops : ∀ m n, (h.node m).op = (h.node n).op → m = n)
    {m : NodeId} (turns : Nat) : ∀ s t, Full s.refreshNodes → m ∈ s.visitedNodes → refresh h some turns s = some t →
      t.shapes.output (h.node m).op = s.shapes.output (h.node m).op := by
  induction turns with
  | zero => exact fun _ _ _ _ h => nomatch h
  | succ turns ih =>
    intro s t hs hm hrun
    unfold refresh at hrun
    split at hrun
    next => rw [Option.some.inj hrun]
    next hsize =>
      obtain ⟨n, hn⟩ := hs s.refreshNodes.top (Nat.sub_one_lt hsize)
      obtain ⟨u, hu, hturned⟩ := turn_kept (hone n) hs hn
      rw [hu] at hrun
      refine (ih u t hturned.full (hturned.visited m hm) hrun).trans (hturned.outputs _ ?_)
      by_cases hnm : n = m
      · exact .inl (hnm ▸ hm)
      · exact .inr fun heq => hnm (hops m n heq).symm

/-! ## Nothing to be refreshed -/

theorem varyingNodes_of_eq_nil {nodes : List NodeId} (hnone : varyingNodes h x nodes = []) (n : NodeId) : ¬Varies h x nodes n := by
  rintro ⟨v, hv, -⟩
  rw [hnone] at hv
  cases hv

/-- A loop with something to be refreshed reads what was destroyed in its first turn. -/
theorem refresh_eq_none {shapes : BodyShapes} {ns : List NodeId} (hns : ns ≠ []) (turns : Nat) :
    refresh h (fun _ => none) turns { shapes, refreshNodes := ns.foldl NodeStack.push {} } = none := by
  cases turns with
  | zero => rfl
  | succ turns =>
    obtain ⟨ns, n, rfl⟩ := (eq_nil_or_concat ns).resolve_left hns
    rw [concat_eq_append]
    obtain ⟨hsize, htop⟩ := foldl_push ns n {}
    unfold refresh
    rw [if_neg hsize]
    unfold turn
    simp only [read_pop htop]
    rfl

end BrushedBodiesAux

open BodyRefresh BrushedBodiesAux in
/-- The body of a loop is brushed where it varies, whatever is read of what was destroyed, exactly when no data node of it varies. -/
theorem brushesVarying_iff (h : Heap) (x : RefIndexes) (fuel : Nat) (node : NodeId) (body : GraphId) (nodes : List NodeId)
    (shapes : BodyShapes) (hbody : NodeUtils.getSubgraph h fuel node kWhileBodySubGraphIdx = some (some body))
    (hnodes : ComputeGraph.getAllNodes h fuel body = some nodes) :
    BrushesVarying h x nodes fuel node shapes ↔ ∀ n ∈ nodes, Node.getType h n = "Data" → NodeUtils.isWhileVaryingInput h x n =
      false := by
  have hrun : ∀ ρ turns, reverseBrushWhileBodySubGraph h x ρ fuel turns node shapes =
      (refresh h ρ turns { shapes, refreshNodes := (varyingNodes h x nodes).foldl NodeStack.push {} }).map
        fun s => (.success, s.shapes) := by
    intro ρ turns
    unfold reverseBrushWhileBodySubGraph
    simp only [hbody, hnodes, bind_eq_bind, bind_some]
    cases refresh h ρ turns _ <;> rfl
  have hnone : varyingNodes h x nodes = [] ↔ ∀ n ∈ nodes, Node.getType h n = "Data" → NodeUtils.isWhileVaryingInput h x n =
    false := by
    unfold varyingNodes
    rw [filter_eq_nil_iff]
    refine forall₂_congr fun n _ => ?_
    simp
  rw [← hnone]
  constructor
  · intro hbrushes
    by_contra hne
    obtain ⟨turns, after, hafter, -⟩ := hbrushes fun _ => none
    rw [hrun, refresh_eq_none hne] at hafter
    cases hafter
  · intro hnil ρ
    refine ⟨1, shapes, ?_, ?_⟩
    · rw [hrun, hnil]
      rfl
    · have hno := varyingNodes_of_eq_nil hnil
      exact ⟨fun _ _ ⟨n, _, hn, _⟩ => absurd hn (hno n), fun _ _ _ => rfl, fun _ _ ⟨n, _, _, hn, _⟩ => absurd hn (hno n),
        fun _ _ _ => rfl⟩

open BodyRefresh BrushedBodiesAux in
/-- Where what was destroyed is still read, and nodes have one output at most, the outputs of the node that the last data node that
varies feeds first are not brushed. -/
theorem BodyRefresh.refresh_misses (h : Heap) (hone : ∀ n, (h.node n).outDataAnchors.length ≤ 1)
    (hops : ∀ m n, (h.node m).op = (h.node n).op → m = n) (ns : List NodeId) (c : NodeId) (a p : AnchorId) (ha : IsOutput h c a)
    (hp : (OutDataAnchor.getPeerInDataAnchors h a).find? (hasDesc h) = some p) (hne : h.owner p ≠ c) (shapes : BodyShapes)
      (turns : Nat)
    (t : BodyRefresh)
    (hrun : refresh h some turns { shapes, refreshNodes := (ns ++ [c]).foldl NodeStack.push {} } = some t) :
    t.shapes.output (h.node (h.owner p)).op = shapes.output (h.node (h.owner p)).op := by
  cases turns with
  | zero => cases hrun
  | succ turns =>
    obtain ⟨hsize, htop⟩ := foldl_push ns c {}
    have hfull : Full ((ns ++ [c]).foldl NodeStack.push {}) := full_foldl_push _ fun k hk => absurd hk (Nat.not_lt_zero k)
    obtain ⟨u, hu, hturned⟩ := turn_kept (s := { shapes, refreshNodes := (ns ++ [c]).foldl NodeStack.push {} }) (hone c) hfull htop
    unfold refresh at hrun
    rw [if_neg hsize, hu] at hrun
    have hrest := refresh_visited hone hops turns u t hturned.full (hturned.first nofun a p ha hp) hrun
    exact hrest.trans (hturned.outputs _ (.inr fun heq => hne (hops _ _ heq)))

namespace BrushedBodiesWitness

open BodyRefresh BrushedBodiesAux

/-- A loop in graph 0, and in graph 1 its body: data that feeds a node that feeds the output. -/
def looped : Heap := { Heap.empty with
  op := fun o =>
    if o = 0 then { OpDesc.make "while" "While" with subgraphInstanceNames := ["cond", "body"] }
    else if o = 1 then { OpDesc.make "data" "Data" with outputsDesc := [{}] }
    else if o = 2 then { OpDesc.make "relu" "Relu" with inputsDesc := [{}], outputsDesc := [{}] }
    else { OpDesc.make "netoutput" "NetOutput" with inputsDesc := [{}] }
  node := fun n => { op := n, ownerGraph := some (if n = 0 then 0 else 1), inControlAnchor := 100, outControlAnchor := 101
                     inDataAnchors := if n = 2 then [11] else if n = 3 then [13] else []
                     outDataAnchors := if n = 1 then [10] else if n = 2 then [12] else [] }
  anchor := fun a =>
    if a = 10 then { kind := .outData, ownerNode := 1, idx := 0, peerAnchors := [11] }
    else if a = 11 then { kind := .inData, ownerNode := 2, idx := 0, peerAnchors := [10] }
    else if a = 12 then { kind := .outData, ownerNode := 2, idx := 0, peerAnchors := [13] }
    else { kind := .inData, ownerNode := 3, idx := 0, peerAnchors := [12] }
  graph := fun g => if g = 0 then { name := "root", nodes := [0], subGraph := [1], namesToSubgraph := [("body", 1)] }
    else { name := "body", nodes := [1, 2, 3], parentGraph := some 0, parentNode := some 0 } }

/-- The data and the input of the output name the only index of the loop. -/
def onlyIndex : RefIndexes where
  ofNode := fun o => if o = 1 then some 0 else none
  ofInput := fun o _ => if o = 3 then some 0 else none

def scalars : BodyShapes where
  input := fun _ _ => ⟨[]⟩
  output := fun _ _ => ⟨[]⟩

theorem getSubgraph_looped : NodeUtils.getSubgraph looped 6 0 kWhileBodySubGraphIdx = some (some 1) := by decide

theorem getAllNodes_looped : ComputeGraph.getAllNodes looped 6 1 = some [1, 2, 3] := by decide

theorem varyingNodes_looped : varyingNodes looped onlyIndex [1, 2, 3] = [1] := by decide

theorem brushesVarying_looped : BrushesVarying looped onlyIndex [1, 2, 3] 6 0 scalars ↔
    ∀ n ∈ [1, 2, 3], Node.getType looped n = "Data" → NodeUtils.isWhileVaryingInput looped onlyIndex n = false :=
  brushesVarying_iff looped onlyIndex 6 0 1 [1, 2, 3] scalars getSubgraph_looped getAllNodes_looped

/-- Also where what was destroyed is still read: the node that the data feeds is marked as visited, and its output keeps its shape. -/
theorem brushesVarying_false : ¬BrushesVarying looped onlyIndex [1, 2, 3] 6 0 scalars := by
  intro hbrushes
  obtain ⟨turns, after, hafter, hbrushed⟩ := hbrushes some
  obtain ⟨t, ht, rfl⟩ : ∃ t, refresh looped some turns
    { shapes := scalars, refreshNodes := ([] ++ [1]).foldl NodeStack.push {} } = some t ∧
      t.shapes = after := by
    unfold reverseBrushWhileBodySubGraph at hafter
    simp only [getSubgraph_looped, getAllNodes_looped, varyingNodes_looped, bind_eq_bind, bind_some] at hafter
    obtain ⟨t, ht, heq⟩ := bind_eq_some_iff.mp hafter
    exact ⟨t, ht, (Prod.mk.inj (Option.some.inj heq)).2⟩
  have hone : ∀ n, (looped.node n).outDataAnchors.length ≤ 1 := by
    intro n
    change (if n = 1 then [10] else if n = 2 then [12] else []).length ≤ 1
    split
    · decide
    · split <;> decide
  have hmisses : t.shapes.output 2 = scalars.output 2 := refresh_misses looped hone (fun _ _ heq => heq) [] 1 10 11
    ⟨by decide, by decide⟩ (by decide) (by decide) scalars turns t ht
  have hvaries : OutputVaries looped onlyIndex [1, 2, 3] 2 0 := by
    refine ⟨2, 12, ⟨1, by decide, .single ⟨10, 11, ⟨by decide, by decide⟩, ⟨by decide, by decide⟩, rfl⟩⟩,
      ⟨by decide, by decide⟩, rfl, rfl⟩
  have hshape := hbrushed.outputs 2 0 hvaries
  rw [hmisses] at hshape
  exact absurd hshape (by decide)

end BrushedBodiesWitness

end Metadef
