import Metadef.Lemmas.KeyedWeights
import Metadef.Theorems.NonConstInputs

/-!
# Setting weights by index

`SetWeights` of a map runs over the keys. A key that names an input fed by another node than a Const is reported, and the weight of that
node is written. A key that names no input has a new input made for it. A failure comes when a new constant has nowhere to go.
-/

namespace Metadef

open List Option NonConstInputsWitness Nat AnchorAux

open OpDescUtils

/-- The keys whose inputs have no source. -/
def unfedKeys (h : Heap) (n : NodeId) (map : List (Int32 × Tensor)) : List (Int32 × Tensor) :=
  map.filter fun e => (keySource h n e.1).isNone

namespace WeightsByIndexAux

open Cmd GuardedWrites NewConstsAux WrittenWeightsAux KeyedWeightsAux

variable {tid : Nat} {s u v : WeightHeap} {n : NodeId} {map done : List (Int32 × Tensor)} {a b out out' : AnchorId} {t : Tensor}
  {e : Int32 × Tensor}

/-! ## New sources -/

/-- An input is fed by a constant that was made since. -/
structure NewSource (s u : WeightHeap) (a : AnchorId) (t : Tensor) (out : AnchorId) : Prop where
  peers : u.heap.peers a = [out]
  made : out < u.heap.anchorCount
  kind : u.heap.kind out = .outData
  owner : s.heap.nodeCount ≤ u.heap.owner out
  ownerMade : u.heap.owner out < u.heap.nodeCount
  op : s.heap.opCount ≤ (u.heap.node (u.heap.owner out)).op
  opMade : (u.heap.node (u.heap.owner out)).op < u.heap.opCount
  type : Node.getType u.heap (u.heap.owner out) = "Const"
  weight : u.weight (u.heap.node (u.heap.owner out)).op = .tensor t

variable {o : OpId} {g : GraphId} {c : Nat} {ok : Bool} {x : OpDesc}

/-- Writing the weight of a descriptor from before leaves a new source. -/
theorem NewSource.written (hf : NewSource s u a t out) (ho : o < s.heap.opCount) (t' : Tensor) :
    NewSource s (u.written [(o, t')]) a t out :=
  { hf with weight := (written_of_ne (Nat.ne_of_lt (Nat.lt_of_lt_of_le ho hf.op)) t').trans hf.weight }

/-- Feeding another input leaves a new source. -/
theorem NewSource.fed (hf : NewSource s u a t out) (hv : KeyFed u n e b v out') (ha : a < u.heap.anchorCount) (hab : a ≠ b) :
    NewSource s v a t out := by
  have howner := hv.owners out hf.made
  have hnode := hv.nodes _ hf.ownerMade
  exact
    { peers := (hv.peers a ha hab).trans hf.peers
      made := Nat.lt_of_lt_of_le hf.made hv.anchorCount
      kind := (hv.kinds out hf.made).trans hf.kind
      owner := howner.symm ▸ hf.owner
      ownerMade := by
        rw [howner, hv.nodeCount]
        exact lt_succ_of_lt hf.ownerMade
      op := by
        rw [howner, hnode]
        exact hf.op
      opMade := by
        rw [howner, hnode, hv.opCount]
        exact lt_succ_of_lt hf.opMade
      type := by
        show (v.heap.op (v.heap.node (v.heap.owner out)).op).getType = "Const"
        rw [howner, hnode, hv.types _ hf.opMade]
        exact hf.type
      weight := by
        rw [howner, hnode, hv.weights _ hf.opMade]
        exact hf.weight }

/-- The input that is fed has a new source. -/
theorem newSource_of_fed (hv : KeyFed u n e a v out) (hnodes : s.heap.nodeCount ≤ u.heap.nodeCount)
    (hops : s.heap.opCount ≤ u.heap.opCount) : NewSource s v a e.2 out where
  peers := hv.linked
  made := hv.made
  kind := hv.kind
  owner := hv.owner.symm ▸ hnodes
  ownerMade := by
    rw [hv.owner, hv.nodeCount]
    exact lt_succ_self _
  op := by
    rw [hv.owner, hv.op]
    exact hops
  opMade := by
    rw [hv.owner, hv.op, hv.opCount]
    exact lt_succ_self _
  type := by
    show (v.heap.op (v.heap.node (v.heap.owner out)).op).getType = "Const"
    rw [hv.owner, hv.op]
    exact hv.type
  weight := by
    rw [hv.owner, hv.op]
    exact hv.weight

/-! ## The keys in turn -/

/-- What the keys done so far leave of a map whose keys name inputs. -/
structure Stage (s : WeightHeap) (n : NodeId) (done : List (Int32 × Tensor)) (u : WeightHeap) : Prop where
  sound : u.heap.Sound
  nodeCount : s.heap.nodeCount ≤ u.heap.nodeCount
  anchorCount : s.heap.anchorCount ≤ u.heap.anchorCount
  opCount : s.heap.opCount ≤ u.heap.opCount
  nodes : ∀ m < s.heap.nodeCount, u.heap.node m = s.heap.node m
  owners : ∀ b < s.heap.anchorCount, u.heap.owner b = s.heap.owner b
  kinds : ∀ b < s.heap.anchorCount, u.heap.kind b = s.heap.kind b
  types : ∀ o < s.heap.opCount, (u.heap.op o).getType = (s.heap.op o).getType
  peers : ∀ b < s.heap.anchorCount,
    (∀ e ∈ done, Node.getInDataAnchor s.heap n e.1.toInt = some b → keySource s.heap n e.1 ≠ none) → u.heap.peers b = s.heap.peers b
  weights : ∀ o < s.heap.opCount, u.weight o = (s.written (keyWrites s.heap n done)).weight o
  desc : (unfedKeys s.heap n done).foldlM takeInput (s.heap.desc n) = some (u.heap.desc n)
  fed : ∀ e ∈ done, keySource s.heap n e.1 = none →
    ∃ a out, Node.getInDataAnchor s.heap n e.1.toInt = some a ∧ NewSource s u a e.2 out

/-- What feeds an input of a node was made before. -/
theorem source_made (hs : s.heap.Sound) {k : Int32} (hk : keySource s.heap n k = some out) :
    out < s.heap.anchorCount ∧ s.heap.owner out < s.heap.nodeCount := by
  obtain ⟨a, -, hpeer⟩ := bind_eq_some_iff.mp hk
  have hmem : out ∈ s.heap.peers a := by
    unfold InDataAnchor.getPeerOutAnchor at hpeer
    split at hpeer
    · cases hpeer
    · rename_i c l hl
      split at hpeer
      · cases hpeer
        rw [hl]
        exact mem_cons_self
      · cases hpeer
  obtain ⟨howner, hheld⟩ := hs.peersHeld a out hmem
  exact ⟨hs.laid.made _ howner _ out hheld, howner⟩

variable (hs : s.heap.Sound) (hn : n < s.heap.nodeCount)

section Stages

variable (hu : Stage s n done u) {k : Int32}

include hu

theorem Stage.getInDataAnchor (hn : n < s.heap.nodeCount) (i : Int) :
    Node.getInDataAnchor u.heap n i = Node.getInDataAnchor s.heap n i := by
  rw [Node.getInDataAnchor, Node.getInDataAnchor, hu.nodes n hn]

include hs hn

/-- The source of an input is the same. -/
theorem Stage.getPeerOutAnchor (ha : Node.getInDataAnchor s.heap n k.toInt = some a) (hk : keySource s.heap n k = some out) :
    InDataAnchor.getPeerOutAnchor u.heap a = some out := by
  have hsource := hk
  rw [keySource, ha, bind_some] at hsource
  have hlt : a < s.heap.anchorCount := hs.laid.made n hn .inData a (mem_of_getElem? (getInDataAnchor_eq_some.mp ha).2)
  have hpeers := hu.peers a hlt fun e _ he => by
    rw [key_inj hs hn he ha, hk]
    exact some_ne_none out
  unfold InDataAnchor.getPeerOutAnchor at hsource ⊢
  rw [hpeers]
  split at hsource
  · cases hsource
  · rename_i c l hl
    split at hsource
    · rename_i hkind
      cases hsource
      exact if_pos ((hu.kinds out (source_made hs hk).1).trans hkind)
    · cases hsource

/-- A key whose input has a source has its weight written there. -/
theorem Stage.write (hop : ∀ m < s.heap.nodeCount, (s.heap.node m).op < s.heap.opCount) (hk : keySource s.heap n k = some out)
    (tid : Nat) (t : Tensor) :
    ∃ v, setWeightAt tid n (k, some t) u = some (true, v) ∧ Stage s n (done ++ [(k, t)]) v := by
  obtain ⟨a, ha, -⟩ := bind_eq_some_iff.mp hk
  obtain ⟨hmade, howner⟩ := source_made hs hk
  have hsource : keySource u.heap n k = some out := by
    rw [keySource, hu.getInDataAnchor hn, ha, bind_some]
    exact hu.getPeerOutAnchor hs hn ha hk
  have hto : (u.heap.node (u.heap.owner out)).op = (s.heap.node (s.heap.owner out)).op := by
    rw [hu.owners out hmade, hu.nodes _ howner]
  have hfed : ∀ e ∈ done ++ [(k, t)], keySource s.heap n e.1 = none → e ∈ done := fun e he hnone => by
    rcases mem_append.mp he with he | he
    · exact he
    · rw [mem_singleton.mp he] at hnone
      cases hk.symm.trans hnone
  have hwrites : keyWrites s.heap n (done ++ [(k, t)]) =
      keyWrites s.heap n done ++ [((s.heap.node (s.heap.owner out)).op, t)] := by
    simp [keyWrites, keyOp, hk]
  have hunfed : unfedKeys s.heap n (done ++ [(k, t)]) = unfedKeys s.heap n done := by
    simp [unfedKeys, hk]
  refine ⟨_, setWeightAt_of_source hsource, ?_⟩
  rw [hto]
  exact
    { sound := hu.sound
      nodeCount := hu.nodeCount
      anchorCount := hu.anchorCount
      opCount := hu.opCount
      nodes := hu.nodes
      owners := hu.owners
      kinds := hu.kinds
      types := hu.types
      peers := fun b hb hnone => hu.peers b hb fun e he => hnone e (mem_append_left _ he)
      weights := fun o ho => by
        rw [hwrites, written_append]
        exact written_congr (hu.weights o ho) t
      desc := by
        rw [hunfed]
        exact hu.desc
      fed := fun e he hnone => by
        obtain ⟨a, out, ha, hnew⟩ := hu.fed e (hfed e he hnone) hnone
        exact ⟨a, out, ha, hnew.written (hop _ howner) t⟩ }

/-- A key whose input has no link has the input fed by a new constant, when the descriptor takes it. -/
theorem Stage.feed (hop : ∀ m < s.heap.nodeCount, (s.heap.node m).op < s.heap.opCount)
    (ha : Node.getInDataAnchor s.heap n k.toInt = some a) (hfree : s.heap.peers a = []) (hg : (s.heap.node n).ownerGraph ≠ none)
    (hfirst : ∀ e ∈ done, e.1 ≠ k) (tid : Nat) (t : Tensor) :
    ∃ ok v, setWeightAt tid n (k, some t) u = some (ok, v) ∧ (ok = true ↔ (takeInput (u.heap.desc n) (k, t)).isSome) ∧
      (ok = true → Stage s n (done ++ [(k, t)]) v) := by
  obtain ⟨g, hg⟩ := ne_none_iff_exists'.mp hg
  have hlt : a < s.heap.anchorCount := hs.laid.made n hn .inData a (mem_of_getElem? (getInDataAnchor_eq_some.mp ha).2)
  have hnode := hu.nodes n hn
  have hopn : (u.heap.node n).op < u.heap.opCount := by
    rw [hnode]
    exact Nat.lt_of_lt_of_le (hop n hn) hu.opCount
  have hother : ∀ e ∈ done, ∀ b, Node.getInDataAnchor s.heap n e.1.toInt = some b → b ≠ a := fun e he b hb hba => by
    subst hba
    exact hfirst e he (key_inj hs hn hb ha)
  have hfree' : u.heap.peers a = [] :=
    (hu.peers a hlt fun e he hb => absurd rfl (hother e he a hb)).trans hfree
  obtain ⟨ok, v, hrun, hok, hfeeds⟩ := setWeightAt_feeds hu.sound (Nat.lt_of_lt_of_le hn hu.nodeCount) hopn
    ((hu.getInDataAnchor hn _).trans ha) hfree' (hnode ▸ hg) tid t
  refine ⟨ok, v, hrun, hok, fun htrue => ?_⟩
  obtain ⟨out, hv⟩ := hfeeds htrue
  have hsource : keySource s.heap n k = none := by
    rw [keySource, ha, bind_some, InDataAnchor.getPeerOutAnchor, hfree]
  have hwrites : keyWrites s.heap n (done ++ [(k, t)]) = keyWrites s.heap n done := by
    simp [keyWrites, keyOp, hsource]
  have hunfed : unfedKeys s.heap n (done ++ [(k, t)]) = unfedKeys s.heap n done ++ [(k, t)] := by
    simp [unfedKeys, hsource]
  have hle {b : AnchorId} (hb : b < s.heap.anchorCount) : b < u.heap.anchorCount := Nat.lt_of_lt_of_le hb hu.anchorCount
  exact
    { sound := hv.sound
      nodeCount := Nat.le_trans hu.nodeCount (by rw [hv.nodeCount]; exact le_succ _)
      anchorCount := Nat.le_trans hu.anchorCount hv.anchorCount
      opCount := Nat.le_trans hu.opCount (by rw [hv.opCount]; exact le_succ _)
      nodes := fun m hm => (hv.nodes m (Nat.lt_of_lt_of_le hm hu.nodeCount)).trans (hu.nodes m hm)
      owners := fun b hb => (hv.owners b (hle hb)).trans (hu.owners b hb)
      kinds := fun b hb => (hv.kinds b (hle hb)).trans (hu.kinds b hb)
      types := fun o ho => (hv.types o (Nat.lt_of_lt_of_le ho hu.opCount)).trans (hu.types o ho)
      peers := fun b hb hnone => by
        have hba : b ≠ a := fun he => hnone (k, t) (mem_append_right _ (mem_singleton_self _)) (he ▸ ha) hsource
        exact (hv.peers b (hle hb) hba).trans (hu.peers b hb fun e he => hnone e (mem_append_left _ he))
      weights := fun o ho => by
        rw [hwrites, hv.weights o (Nat.lt_of_lt_of_le ho hu.opCount)]
        exact hu.weights o ho
      desc := by
        rw [hunfed, foldlM_append, hu.desc]
        simp [hv.desc]
      fed := fun e he hnone => by
        rcases mem_append.mp he with he | he
        · obtain ⟨b, out', hb, hnew⟩ := hu.fed e he hnone
          have hblt : b < s.heap.anchorCount :=
            hs.laid.made n hn .inData b (mem_of_getElem? (getInDataAnchor_eq_some.mp hb).2)
          exact ⟨b, out', hb, hnew.fed hv (hle hblt) (hother e he b hb)⟩
        · rw [mem_singleton.mp he]
          exact ⟨a, out, ha, newSource_of_fed hv hu.nodeCount hu.opCount⟩ }

end Stages

/-- A key names an input, which has no link when it has no source. -/
def KeyNamed (s : WeightHeap) (n : NodeId) (e : Int32 × Tensor) : Prop :=
  ∃ a, Node.getInDataAnchor s.heap n e.1.toInt = some a ∧ (keySource s.heap n e.1 = none → s.heap.peers a = [])

include hs hn in
/-- Keys that name inputs are all set when the descriptor takes the inputs that have no link. -/
theorem Stage.run (hop : ∀ m < s.heap.nodeCount, (s.heap.node m).op < s.heap.opCount) (tid : Nat) :
    ∀ {map done : List (Int32 × Tensor)} {u : WeightHeap}, Stage s n done u → (∀ e ∈ map, KeyNamed s n e) →
      (unfedKeys s.heap n map ≠ [] → (s.heap.node n).ownerGraph ≠ none) → ((done ++ map).map Prod.fst).Nodup →
      ∃ ok v, Cmd.eachOk (fun e => setWeightAt tid n (e.1, some e.2)) map u = some (ok, v) ∧
        (ok = true → Stage s n (done ++ map) v) ∧
        (ok = true ↔ ((unfedKeys s.heap n (done ++ map)).foldlM takeInput (s.heap.desc n)).isSome) := by
  intro map
  induction map with
  | nil =>
    intro done u hu _ _ _
    rw [append_nil]
    exact ⟨true, u, rfl, fun _ => hu, by rw [hu.desc]; simp⟩
  | cons e map ih =>
    intro done u hu hnamed hg hkeys
    obtain ⟨a, ha, hfree⟩ := hnamed e mem_cons_self
    have hassoc : done ++ e :: map = (done ++ [e]) ++ map := by rw [append_assoc]; rfl
    have hg' : unfedKeys s.heap n map ≠ [] → (s.heap.node n).ownerGraph ≠ none := fun hne => hg fun hnil =>
      hne (filter_eq_nil_iff.mpr fun e' he' => filter_eq_nil_iff.mp hnil e' (mem_cons_of_mem e he'))
    rw [Cmd.eachOk]
    cases hk : keySource s.heap n e.1 with
    | some out =>
      obtain ⟨m, hm, hstage⟩ := hu.write hs hn hop hk tid e.2
      obtain ⟨ok, v, hv, hrest⟩ := ih hstage (fun e' he' => hnamed e' (mem_cons_of_mem e he')) hg' (hassoc ▸ hkeys)
      rw [bind_of_eq hm, hassoc]
      exact ⟨ok, v, hv, hrest⟩
    | none =>
      have hne : unfedKeys s.heap n (e :: map) ≠ [] := fun hnil => by
        have := filter_eq_nil_iff.mp hnil e mem_cons_self
        rw [hk] at this
        exact this rfl
      have hfirst : ∀ e' ∈ done, e'.1 ≠ e.1 := fun e' he' heq => by
        rw [map_append, map_cons] at hkeys
        exact (nodup_append.mp hkeys).2.2 _ (List.mem_map_of_mem he') _ mem_cons_self heq
      obtain ⟨ok, m, hm, hok, hstage⟩ := hu.feed hs hn hop ha (hfree hk) (hg hne) hfirst tid e.2
      cases ok with
      | true =>
        obtain ⟨ok, v, hv, hrest⟩ := ih (hstage rfl) (fun e' he' => hnamed e' (mem_cons_of_mem e he')) hg' (hassoc ▸ hkeys)
        rw [bind_of_eq hm, hassoc]
        exact ⟨ok, v, hv, hrest⟩
      | false =>
        -- the descriptor does not take this input
        refine ⟨false, m, bind_of_eq hm, fun hok => absurd hok Bool.false_ne_true, ?_⟩
        have hnot : takeInput (u.heap.desc n) e = none := by
          cases htake : takeInput (u.heap.desc n) e with
          | none => rfl
          | some x => exact absurd (hok.mpr (by rw [show ((e.1, e.2) : Int32 × Tensor) = e from rfl, htake]; rfl)) (by decide)
        have hsplit : unfedKeys s.heap n (done ++ e :: map) = unfedKeys s.heap n done ++ e :: unfedKeys s.heap n map := by
          simp [unfedKeys, hk]
        rw [hsplit, foldlM_append, hu.desc]
        simp [hnot]

/-! ## Without a graph -/

/-- A heap in which a node has its graph, and so many nodes were made. -/
structure Going (n : NodeId) (g : GraphId) (c : Nat) (h : Heap) : Prop where
  sound : h.Sound
  made : n < h.nodeCount
  count : c ≤ h.nodeCount
  graph : (h.node n).ownerGraph = some g

theorem linkInvariant_going (g : GraphId) (c : Nat) : CallAux.LinkInvariant (Going n g c) where
  setOp h o x hp := ⟨hp.sound.setOp o x, hp.made, hp.count, hp.graph⟩
  append h m k hk hp hm := by
    obtain ⟨-, -, -, -, -, hgraph, hothers⟩ := NewNodesAux.appendAnchor_frame m k h
    refine ⟨sound_appendAnchor hp.sound hk hm, ?_, ?_, ?_⟩
    · rw [appendAnchor_nodeCount]
      exact hp.made
    · rw [appendAnchor_nodeCount]
      exact hp.count
    · by_cases hnm : n = m
      · subst hnm
        rw [hgraph, hp.graph]
      · rw [hothers n hnm, hp.graph]
  feed h m m' out a hp hm hm' hout ha _ :=
    ⟨hp.sound.linked (hp.sound.laid.held hm hout) (hp.sound.laid.held hm' ha), hp.made, hp.count, hp.graph⟩

/-- A key adds a node when it fails. -/
theorem Going.step (hs : Going n g c s.heap) (hr : setWeightAt tid n (e.1, some e.2) s = some (ok, v)) :
    Going n g c v.heap ∧ (ok = false → Going n g (c + 1) v.heap) := by
  cases hk : keySource s.heap n e.1 with
  | some out =>
    rw [setWeightAt_of_source hk] at hr
    cases hr
    exact ⟨hs, nofun⟩
  | none =>
    obtain ⟨u, out, hadd, hrun⟩ := setWeightAt_of_graph hs.sound hk hs.graph tid e.2
    rw [hrun] at hr
    obtain ⟨r, hr', he⟩ := map_eq_some_iff.mp hr
    have hu : Going n g (c + 1) u.heap := by
      refine ⟨hadd.sound, ?_, ?_, ?_⟩
      · rw [hadd.nodeCount]
        exact lt_succ_of_lt hs.made
      · rw [hadd.nodeCount]
        exact succ_le_succ hs.count
      · rw [hadd.nodes n hs.made]
        exact hs.graph
    have hv : Going n g (c + 1) r.2 := (linkInvariant_going g (c + 1)).addLinkFromAt hu hr' hu.made fun m hm => by
      obtain rfl : s.heap.nodeCount = m := Option.some.inj hm
      rw [hadd.nodeCount]
      exact lt_succ_self _
    have hheap : v.heap = r.2 := by rw [← (Prod.mk.inj he).2]
    rw [hheap]
    exact ⟨⟨hv.sound, hv.made, le_of_succ_le hv.count, hv.graph⟩, fun _ => hv⟩

/-- Keys that fail have added a node. -/
theorem Going.run : ∀ {map : List (Int32 × Tensor)} {s : WeightHeap}, Going n g c s.heap →
    Cmd.eachOk (fun e => setWeightAt tid n (e.1, some e.2)) map s = some (false, v) → Going n g (c + 1) v.heap := by
  intro map
  induction map with
  | nil => exact fun _ hr => by cases hr
  | cons e map ih =>
    intro s hs hr
    obtain ⟨ok, m, hm, hrest⟩ := bind_eq_some.mp hr
    obtain ⟨hgoing, hfailed⟩ := hs.step hm
    cases ok with
    | true => exact ih hgoing hrest
    | false =>
      obtain rfl : m = v := by simpa using hrest
      exact hfailed rfl

/-! ## The outcome -/

end WeightsByIndexAux

namespace WeightsByIndexWitness

/-- A Const with a weight feeds a node that runs a subgraph; a Data node feeds a Relu. -/
def weights : WeightHeap where
  heap := NonConstInputsWitness.heap
  weight o := if o = 0 then .tensor {} else .unset

end WeightsByIndexWitness

end Metadef
