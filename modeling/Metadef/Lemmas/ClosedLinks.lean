import Metadef.Lemmas.CallSteps
import Metadef.Lemmas.IsolateSteps

/-!
# Links that stay among nodes

Links between different nodes join nodes of a list. Removing links keeps that, and so does linking what stands beside a node:
its anchors and those they are linked to. A node that is isolated is followed by such steps; where none of its anchors is
linked to another, its own links only go.
-/

namespace Metadef

open Cmd Heap LinkAux CallAux IsolateAux

namespace ClosedAux

/-- A sound heap whose links join outputs and inputs, of one node or of nodes of a list. -/
structure Inside (h : Heap) (N : List NodeId) : Prop where
  sound : h.Sound
  directed : h.Directed
  made : ∀ n ∈ N, n < h.nodeCount
  links : ∀ a, ∀ b ∈ h.peers a, h.owner a = h.owner b ∨ (h.owner a ∈ N ∧ h.owner b ∈ N)

variable {h h' : Heap} {N : List NodeId} {n : NodeId} {c : Prop}

/-- What keeps the layout and removes links keeps links inside. -/
theorem Inside.of_sublist (hi : Inside h N) (hl : SameLayout h h') (hs : h'.Sound)
    (hsub : ∀ a, h'.peers a ⊆ h.peers a) : Inside h' N := by
  refine ⟨hs, fun a b hb => ?_, fun m hm => ?_, fun a b hb => ?_⟩
  · rw [hl.kind, hl.kind]
    exact hi.directed a b (hsub a hb)
  · rw [hl.nodeCount]
    exact hi.made m hm
  · rw [hl.owner, hl.owner]
    exact hi.links a b (hsub a hb)

/-- A longer list of nodes has the same links inside. -/
theorem Inside.mono {M : List NodeId} (hi : Inside h N) (hsub : N ⊆ M) (hmade : ∀ n ∈ M, n < h.nodeCount) : Inside h M :=
  ⟨hi.sound, hi.directed, hmade, fun a b hb => (hi.links a b hb).imp_right fun hab => ⟨hsub hab.1, hsub hab.2⟩⟩

/-! ## Steps beside a node -/

/-- The links of a node inside a list change beside it. Under a condition, its own links only go, and those of other nodes outside
the list only go. -/
structure Within (c : Prop) (n : NodeId) (N : List NodeId) (h h' : Heap) : Prop where
  layout : SameLayout h h'
  opCount : h'.opCount = h.opCount
  frame : h'.op = h.op ∧ h'.graph = h.graph
  inside : Inside h' N
  shrink : c → ∀ a, h.owner a = n → (h'.peers a).Sublist (h.peers a)
  outside : ∀ a, h.owner a ≠ n → h.owner a ∉ N → (h'.peers a).Sublist (h.peers a)

theorem Within.refl (hi : Inside h N) : Within c n N h h :=
  ⟨SameLayout.refl h, rfl, ⟨rfl, rfl⟩, hi, fun _ _ _ => List.Sublist.refl _, fun _ _ _ => List.Sublist.refl _⟩

theorem Within.trans {h'' : Heap} (hw : Within c n N h h') (hw' : Within c n N h' h'') : Within c n N h h'' :=
  ⟨hw.layout.trans hw'.layout, hw'.opCount.trans hw.opCount,
    ⟨hw'.frame.1.trans hw.frame.1, hw'.frame.2.trans hw.frame.2⟩, hw'.inside,
    fun hc a ha => (hw'.shrink hc a ((hw.layout.owner a).trans ha)).trans (hw.shrink hc a ha),
    fun a hn hN => (hw'.outside a (hw.layout.owner a ▸ hn) (hw.layout.owner a ▸ hN)).trans (hw.outside a hn hN)⟩

/-- A node without a link to itself stays one while its links go. -/
theorem Within.noLoop (hw : Within c n N h h') (hloop : c → NoLoop h n) : c → NoLoop h' n := by
  intro hc a b ha hb
  rw [hw.layout.owner] at ha ⊢
  exact hloop hc a b ha ((hw.shrink hc a ha).subset hb)

/-- A command that stays beside the node from every heap on. -/
def Stays (c : Prop) (n : NodeId) (N : List NodeId) (h : Heap) (x : Cmd Heap Bool) : Prop :=
  Keeps (Within c n N h) x

/-- An anchor that may take over a link of the node: its own, or of a node of the list beside it. -/
structure Beside (c : Prop) (n : NodeId) (N : List NodeId) (h : Heap) (a : AnchorId) : Prop where
  held : h.Held a
  near : h.owner a = n ∨ (n ∈ N ∧ h.owner a ∈ N)
  away : c → h.owner a ≠ n

variable {a b x new old : AnchorId}

theorem Beside.of_layout (hl : SameLayout h h') (hb : Beside c n N h a) : Beside c n N h' a := by
  refine ⟨(hl.held a).mpr hb.held, ?_, ?_⟩
  · rw [hl.owner]
    exact hb.near
  · rw [hl.owner]
    exact hb.away

/-- The peers of the node's anchors stand beside it. -/
theorem beside_peer (hi : Inside h N) (hloop : c → NoLoop h n) (ha : h.owner a = n) (hb : b ∈ h.peers a) : Beside c n N h b := by
  refine ⟨hi.sound.peersHeld a b hb, ?_, fun hc => hloop hc a b ha hb⟩
  rcases hi.links a b hb with he | hin
  · exact .inl (he.symm.trans ha)
  · exact .inr ⟨ha ▸ hin.1, hin.2⟩

/-- So does the control anchor of a node one of whose anchors does. -/
theorem Beside.control (hi : Inside h N) (hb : Beside c n N h b) {k : AnchorKind}
    (hx : x ∈ h.anchorsOf (h.owner b) k) : Beside c n N h x ∧ h.kind x = k := by
  have howner : h.owner x = h.owner b := hi.sound.laid.owner _ hb.held.1 k x hx
  refine ⟨⟨hi.sound.laid.held hb.held.1 hx, ?_, ?_⟩, hi.sound.laid.kind _ hb.held.1 k x hx⟩
  · rw [howner]
    exact hb.near
  · rw [howner]
    exact hb.away

/-- Unlinking stays beside any node. -/
theorem stays_unlink (this : AnchorId) (peer : Option AnchorId) : Stays c n N h (Anchor.unlink this peer) := by
  intro m ok m' hw hr
  refine hw.trans ?_
  have hs := keeps_unlink this peer m ok m' hw.inside.sound hr
  rcases unlink_cases hr with ⟨-, rfl⟩ | ⟨-, p, i, j, -, -, -, -, hm'⟩
  · exact .refl hw.inside
  · have hlayout : SameLayout m m' := by
      rw [hm']
      exact (sameLayout_setPeers _ _ _).trans (sameLayout_setPeers _ _ _)
    have hsub : ∀ a, (m'.peers a).Sublist (m.peers a) := by
      intro a
      rw [hm', setPeers_peers, setPeers_peers]
      split
      · rename_i ha
        exact ha ▸ List.eraseIdx_sublist _ _
      · split
        · rename_i ha
          exact ha ▸ List.eraseIdx_sublist _ _
        · exact List.Sublist.refl _
    have hframe : m'.op = m.op ∧ m'.graph = m.graph := by
      rw [hm']
      exact ⟨rfl, rfl⟩
    have hops : m'.opCount = m.opCount := by
      rw [hm']
      rfl
    exact ⟨hlayout, hops, hframe, hw.inside.of_sublist hlayout hs fun a => (hsub a).subset, fun _ a _ => hsub a,
      fun a _ _ => hsub a⟩

/-- Linking an output and an input beside the node stays beside it. -/
theorem stays_link {y : AnchorId} (hx : Beside c n N h x) (hy : Beside c n N h y) (hkx : (h.kind x).isIn = false)
    (hky : (h.kind y).isIn = true) (free : Heap → AnchorId → Bool) : Stays c n N h (Anchor.link x (some y) free) := by
  intro m ok m' hw hr
  rcases link_cases hr with ⟨-, rfl⟩ | ⟨-, o, ho, -, rfl⟩
  · exact hw
  obtain rfl : y = o := Option.some.inj ho
  have hl := hw.layout
  have hmem : ∀ a b, b ∈ (Anchor.linked m x y).peers a ↔ (b ∈ m.peers a ∨ (a = x ∧ b = y)) ∨ (a = y ∧ b = x) := by
    intro a b
    rw [linked_peers, Adjacency.mem_push, Adjacency.mem_push]
  have hlayout : SameLayout m (Anchor.linked m x y) := sameLayout_linked m x y
  have hkind : (m.kind y).isIn = !(m.kind x).isIn := by
    rw [hl.kind, hl.kind, hkx, hky]
    rfl
  -- of two anchors beside the node both are its own, or both are of nodes of the list
  have hjoin : m.owner x = m.owner y ∨ (m.owner x ∈ N ∧ m.owner y ∈ N) := by
    rw [hl.owner, hl.owner]
    rcases hx.near with hxn | ⟨hn, hxN⟩ <;> rcases hy.near with hyn | ⟨hn', hyN⟩
    · exact .inl (hxn.trans hyn.symm)
    · exact .inr ⟨hxn ▸ hn', hyN⟩
    · exact .inr ⟨hxN, hyn ▸ hn⟩
    · exact .inr ⟨hxN, hyN⟩
  have hpeers : ∀ a, a ≠ x → a ≠ y → (Anchor.linked m x y).peers a = m.peers a := by
    intro a hax hay
    simp only [Anchor.linked, setPeers_peers, if_neg hax, if_neg hay]
  refine hw.trans ⟨hlayout, rfl, ⟨rfl, rfl⟩, ⟨?_, fun a b hb => ?_, fun k hk => ?_, fun a b hb => ?_⟩, fun hc a ha => ?_,
    fun a hne hout => ?_⟩
  · exact hw.inside.sound.linked ((hl.held x).mpr hx.held) ((hl.held y).mpr hy.held)
  · rw [hlayout.kind, hlayout.kind]
    rcases (hmem a b).mp hb with (hb | ⟨rfl, rfl⟩) | ⟨rfl, rfl⟩
    · exact hw.inside.directed a b hb
    · exact hkind
    · rw [hkind, Bool.not_not]
  · rw [hlayout.nodeCount]
    exact hw.inside.made k hk
  · rw [hlayout.owner, hlayout.owner]
    rcases (hmem a b).mp hb with (hb | ⟨rfl, rfl⟩) | ⟨rfl, rfl⟩
    · exact hw.inside.links a b hb
    · exact hjoin
    · exact hjoin.elim (fun he => .inl he.symm) fun hin => .inr ⟨hin.2, hin.1⟩
  · have hax : a ≠ x := by
      rintro rfl
      exact hx.away hc ((hl.owner a).symm.trans ha)
    have hay : a ≠ y := by
      rintro rfl
      exact hy.away hc ((hl.owner a).symm.trans ha)
    rw [hpeers a hax hay]
  · -- an anchor beside the node is its own or of a node of the list
    have haway : ∀ z, Beside c n N h z → a ≠ z := by
      rintro z hz rfl
      rw [hl.owner] at hne hout
      rcases hz.near with hzn | ⟨-, hzN⟩
      · exact hne hzn
      · exact hout hzN
    rw [hpeers a (haway x hx) (haway y hy)]

/-! ## Sequences of steps -/

theorem Stays.eachOk {α : Type} {f : α → Cmd Heap Bool} {l : List α} (hf : ∀ a ∈ l, Stays c n N h (f a)) :
    Stays c n N h (Cmd.eachOk f l) :=
  Keeps.eachOk hf

/-- A step, and another where it succeeds. -/
theorem Stays.andThen {x y : Cmd Heap Bool} (hx : Stays c n N h x) (hy : Stays c n N h y) :
    Stays c n N h (x >>= fun ok => if !ok then pure false else y) := by
  refine Keeps.bind hx fun ok => ?_
  exact Keeps.ite (fun _ => Keeps.pure false) fun _ => hy

/-- What a step that reads the heap does, it does from a heap its first stays beside. -/
theorem Stays.get {f : Heap → Cmd Heap Bool} (hf : ∀ m, Within c n N h m → Stays c n N m (f m)) :
    Stays c n N h (do let m ← get; f m) := by
  intro m ok m' hw hr
  rw [get_bind_apply] at hr
  exact hw.trans (hf m hw m ok m' (.refl hw.inside) hr)

/-- An anchor that is an output beside the node, and one that is an input. -/
abbrev OutBeside (c : Prop) (n : NodeId) (N : List NodeId) (h : Heap) (x : AnchorId) : Prop :=
  Beside c n N h x ∧ (h.kind x).isIn = false

theorem OutBeside.of_layout (hl : SameLayout h h') (hx : OutBeside c n N h x) : OutBeside c n N h' x :=
  ⟨hx.1.of_layout hl, (congrArg AnchorKind.isIn (hl.kind x)).trans hx.2⟩

/-- An overload of `AddEdge` that links, whatever it asks of the destination. -/
def Links (addEdge : Option AnchorId → Option AnchorId → Cmd Heap Bool) : Prop :=
  ∀ a d, ∃ free, addEdge (some a) (some d) = Anchor.link a (some d) free

theorem links_addDataEdge : Links GraphUtils.addDataEdge := fun _ _ => ⟨fun h d => (h.peers d).isEmpty, rfl⟩

theorem links_addControlEdge : Links GraphUtils.addControlEdge := fun _ _ => ⟨fun _ _ => true, rfl⟩

theorem links_addDataControlEdge : Links GraphUtils.addDataControlEdge := fun _ _ => ⟨fun _ _ => true, rfl⟩

/-- Moving links of the node's output to an output beside the node. -/
theorem stays_movePeersOf {addEdge : Option AnchorId → Option AnchorId → Cmd Heap Bool} (hadd : Links addEdge)
    (k : AnchorKind) (hnew : OutBeside c n N h new) (hold : h.owner old = n)
    (hkold : (h.kind old).isIn = false) (hloop : c → NoLoop h n) :
    Stays c n N h (ComputeGraph.movePeersOf addEdge k new old) := by
  refine Stays.get fun m hw => Stays.eachOk fun next hnext => ?_
  have hpeer : next ∈ m.peers old := (List.mem_filter.mp hnext).1
  have hbeside : Beside c n N m next :=
    beside_peer hw.inside (hw.noLoop hloop) ((hw.layout.owner old).trans hold) hpeer
  have hin : (m.kind next).isIn = true := by
    rw [hw.inside.directed old next hpeer, hw.layout.kind, hkold]
    rfl
  obtain ⟨free, hfree⟩ := hadd new next
  have hnew' := hnew.of_layout hw.layout
  refine (stays_unlink old (some next)).andThen ?_
  rw [hfree]
  exact stays_link hnew'.1 hbeside hnew'.2 hin free

theorem stays_moveOutData (hnew : OutBeside c n N h new) (hold : h.owner old = n)
    (hkold : (h.kind old).isIn = false) (hloop : c → NoLoop h n) : Stays c n N h (ComputeGraph.moveOutData new old) :=
  (stays_movePeersOf links_addDataEdge .inData hnew hold hkold hloop).andThen
    (stays_movePeersOf links_addDataControlEdge .inControl hnew hold hkold hloop)

theorem stays_removePeersOf (k : AnchorKind) (a : AnchorId) : Stays c n N h (ComputeGraph.removePeersOf k a) :=
  Stays.get fun _ _ => Stays.eachOk fun next _ => stays_unlink a (some next)

theorem stays_removeOutData (a : AnchorId) : Stays c n N h (ComputeGraph.removeOutData a) :=
  (stays_removePeersOf .inData a).andThen (stays_removePeersOf .inControl a)

end ClosedAux

end Metadef
