import Mathlib.Data.Prod.Lex
import Metadef.Lemmas.RefLists
import Metadef.Theorems.FormatInference

/-!
# The end of format inference

Nodes are queued again where a place is set whose format is not known. What is set is the class that is found under the key of the
place; each time nodes are queued a format is learnt exactly as long as these classes hold one that is not known, and then the queue
is emptied.
-/

namespace Metadef

open List

/-! ## Formats learnt -/

namespace TensorFormats

/-- A format that was not known is known. -/
def Learns (s t : TensorFormats) : Prop :=
  ∃ op side index f, s.originAt op side index = some Format.nd ∧ t.originAt op side index = some f ∧ f ≠ Format.nd

/-- The formats are those that are read back from what they are kept as. -/
def Readable (s : TensorFormats) : Prop := ∀ op side index f, s.originAt op side index = some f → f.kept = f

/-- The places are the same, no format that is known becomes unknown, and formats stay readable. -/
structure Advances (s t : TensorFormats) : Prop where
  places : ∀ op side index, (t.originAt op side index).isSome = (s.originAt op side index).isSome
  known : ∀ op side index f, s.originAt op side index = some f → f ≠ Format.nd → t.originAt op side index ≠ some Format.nd
  readable : s.Readable → t.Readable

end TensorFormats

namespace FormatEnv

variable (Γ : FormatEnv)

/-- The functions of the operators reset no format. -/
def NeverResets : Prop := ∀ n (s : TensorFormats), s.Advances (Γ.inferOriginFormat n s).2

/-- Links and relations lead from the nodes of a list to nodes of the list. -/
structure Closed (nodes : List NodeId) : Prop where
  sources : ∀ n ∈ nodes, ∀ a ∈ (Γ.heap.node n).inDataAnchors, ∀ b, InDataAnchor.getPeerOutAnchor Γ.heap a = some b →
    Γ.heap.owner b ∈ nodes
  readers : ∀ n ∈ nodes, ∀ a ∈ (Γ.heap.node n).outDataAnchors, ∀ b ∈ OutDataAnchor.getPeerInDataAnchors Γ.heap a,
    Γ.heap.owner b ∈ nodes
  related : ∀ key : RefCell, key.node ∈ nodes → ∀ c ∈ FormatRefiner.reflectionOf Γ key, c.node ∈ nodes

/-- The outputs of nodes have descriptors. -/
def InStep (nodes : List NodeId) (s : TensorFormats) : Prop :=
  ∀ n ∈ nodes, ∀ a ∈ (Γ.heap.node n).outDataAnchors, (s.originAt (FormatRefiner.opOf Γ n) .nodeOut (Γ.heap.anchor a).idx).isSome

end FormatEnv

namespace FormatRefiner

variable (Γ : FormatEnv)

/-- `AnchorProcess`: the anchor point is queued. -/
def anchorProcess (formats : TensorFormats) (anchorNode : NodeId) : FormatRefiner := { formats, nodes := [anchorNode] }

/-- The queue is emptied, or an error met. -/
def Finishes (start : FormatRefiner) : Prop :=
  ∃ fuel s, Run.loop (step Γ) fuel start = some s ∧ (s.failed = true ∨ s.visits = [] ∧ s.nodes = [] ∧ s.anchorPoints = [])

/-- A step puts nodes on the queue. -/
def Queues (s t : FormatRefiner) : Prop := ∃ queued, queued ≠ [] ∧ t.nodes = s.nodes ++ queued ∧ t.anchorPoints = s.anchorPoints

/-- Every step that puts nodes on the queue learns a format. -/
def LearnsWhenQueued (start : FormatRefiner) : Prop :=
  ∀ i s t, after Γ i start = some s → step Γ s = some t → Queues s t → s.formats.Learns t.formats

/-- Where the place looked at is to be set with a class, a format of the class is not known. -/
def ClassUnknown (s : FormatRefiner) : Prop :=
  ∀ visit visits key format, s.visits = visit :: visits → lookedAt Γ s visit = some (key, format) → toBeSet Γ s.formats key →
    reflectionOf Γ key ≠ [] → ∃ c ∈ reflectionOf Γ key, s.formats.originAt (opOf Γ c.node) c.inOut c.inOutIdx = some Format.nd

/-- What is still to be done is among the nodes of a list and their links. -/
def VisitWithin (nodes : List NodeId) : FormatVisit → Prop
  | .back n a => n ∈ nodes ∧ a ∈ (Γ.heap.node n).inDataAnchors
  | .forward n a => n ∈ nodes ∧ a ∈ (Γ.heap.node n).outDataAnchors
  | .forwardTo format b => Γ.heap.owner b ∈ nodes ∧ format.kept = format ∧ format ≠ Format.nd

/-- The invariant of inference, from the formats it starts with. -/
structure Sound (nodes : List NodeId) (begun : TensorFormats) (s : FormatRefiner) : Prop where
  readable : s.formats.Readable
  places : ∀ op side index, (s.formats.originAt op side index).isSome = (begun.originAt op side index).isSome
  queued : ∀ n ∈ s.nodes, n ∈ nodes
  points : ∀ n ∈ s.anchorPoints, n ∈ nodes
  visits : ∀ v ∈ s.visits, VisitWithin Γ nodes v

end FormatRefiner

namespace FormatTerminationAux

open FormatRefiner FormatInferenceAux

variable {Γ : FormatEnv} {nodes : List NodeId} {begun : TensorFormats} {s t : FormatRefiner}

/-! ## What a visit does -/

/-- The places of a class are set and its nodes queued. -/
theorem originAt_reflectionProcess (reflection : List RefCell) (format : Format) (op : OpId) (side : InOutFlag) (index : Int) :
    (reflectionProcess Γ reflection format s).formats.originAt op side index =
      if ∃ c ∈ reflection, op = opOf Γ c.node ∧ side = c.inOut ∧ index = c.inOutIdx
        then (s.formats.originAt op side index).map fun _ => format.kept else s.formats.originAt op side index := by
  unfold reflectionProcess
  rw [originAt_foldl]
  simp only [Γ.order.mem]

/-- A place that is to be set has a descriptor whose format is not known. -/
theorem originAt_of_toBeSet {formats : TensorFormats} {key : RefCell} (h : toBeSet Γ formats key) :
    formats.originAt (opOf Γ key.node) key.inOut key.inOutIdx = some Format.nd := by
  unfold toBeSet TensorFormats.getDesc at h
  unfold TensorFormats.originAt
  cases hfind : formats.find (opOf Γ key.node) key.inOut key.inOutIdx with
  | none => simp [hfind] at h
  | some d =>
    simp only [hfind, Option.getD_some, Bool.and_eq_true, decide_eq_true_eq] at h
    rw [Option.map_some, h.1.1]

/-! ## Advancing -/

theorem Advances.refl (s : TensorFormats) : s.Advances s :=
  ⟨fun _ _ _ => rfl, fun _ _ _ _ hf hnd h => hnd (Option.some.inj (hf.symm.trans h)), id⟩

/-- What is known stays known. -/
theorem Advances.some {s t : TensorFormats} (h : s.Advances t) {op : OpId} {side : InOutFlag} {index : Int} {f : Format}
    (hf : s.originAt op side index = some f) (hnd : f ≠ Format.nd) : ∃ g, t.originAt op side index = Option.some g ∧
      g ≠ Format.nd := by
  have hplace := h.places op side index
  rw [hf] at hplace
  obtain ⟨g, hg⟩ := Option.isSome_iff_exists.mp hplace
  exact ⟨g, hg, fun heq => h.known op side index f hf hnd (heq ▸ hg)⟩

theorem Advances.trans {s t u : TensorFormats} (h : s.Advances t) (h' : t.Advances u) : s.Advances u where
  places := fun op side index => (h'.places op side index).trans (h.places op side index)
  known := fun op side index f hf hnd => by
    obtain ⟨g, hg, hgnd⟩ := Advances.some h hf hnd
    exact h'.known op side index g hg hgnd
  readable := fun hs => h'.readable (h.readable hs)

/-- Setting places to a format that is known advances. -/
theorem advances_foldl (Γ : FormatEnv) (l : List RefCell) {format : Format} (hkept : format.kept = format)
    (hnd : format ≠ Format.nd)
    (s : TensorFormats) :
    s.Advances (l.foldl (fun formats cell => formats.updateFormats (opOf Γ cell.node) cell.inOut cell.inOutIdx format) s) := by
  refine ⟨fun op side index => ?_, fun op side index f hf hfnd => ?_, fun hread op side index f hf => ?_⟩
  · rw [originAt_foldl]
    split <;> simp
  · rw [originAt_foldl, hf, hkept]
    split
    · simpa using hnd
    · simpa using hfnd
  · rw [originAt_foldl, hkept] at hf
    split at hf
    next =>
      obtain ⟨g, -, rfl⟩ := Option.map_eq_some_iff.mp hf
      exact hkept
    next => exact hread op side index f hf

/-- The format of a place is learnt. -/
def LearnsAt (Γ : FormatEnv) (s t : TensorFormats) (c : RefCell) : Prop :=
  s.originAt (opOf Γ c.node) c.inOut c.inOutIdx = some Format.nd ∧
    ∃ f, t.originAt (opOf Γ c.node) c.inOut c.inOutIdx = some f ∧ f ≠ Format.nd

theorem LearnsAt.learns {s t : TensorFormats} {c : RefCell} (h : LearnsAt Γ s t c) : s.Learns t := by
  obtain ⟨hs, f, ht, hnd⟩ := h
  exact ⟨_, _, _, f, hs, ht, hnd⟩

theorem LearnsAt.advances {s t u : TensorFormats} {c : RefCell} (h : LearnsAt Γ s t c) (h' : t.Advances u) : LearnsAt Γ s u c := by
  obtain ⟨hs, f, ht, hnd⟩ := h
  exact ⟨hs, Advances.some h' ht hnd⟩

/-- Setting a place of a list whose format is not known learns it. -/
theorem learnsAt_foldl {l : List RefCell} {format : Format} (hkept : format.kept = format) (hnd : format ≠ Format.nd)
    {s : TensorFormats} {c : RefCell} (hc : c ∈ l) (hunknown : s.originAt (opOf Γ c.node) c.inOut c.inOutIdx = some Format.nd) :
    LearnsAt Γ s (l.foldl (fun formats cell => formats.updateFormats (opOf Γ cell.node) cell.inOut cell.inOutIdx format) s) c := by
  refine ⟨hunknown, format, ?_, hnd⟩
  rw [originAt_foldl, if_pos ⟨c, hc, rfl, rfl, rfl⟩, hunknown, Option.map_some, hkept]

/-- What a visit to a place does, by whether it is to be set and has a class. -/
inductive Inferred (Γ : FormatEnv) (key : RefCell) (format : Format) (s : FormatRefiner) : FormatRefiner → Prop where
  | kept (h : ¬toBeSet Γ s.formats key) : Inferred Γ key format s s
  | alone {u : FormatRefiner} (h : toBeSet Γ s.formats key) (hclass : reflectionOf Γ key = [])
      (hpoints : u.anchorPoints = s.anchorPoints) (hvisits : u.visits = s.visits)
      (hqueue : ∀ n ∈ u.nodes, n ∈ s.nodes ∨ n = key.node)
      (hformats : let one := s.formats.updateFormats (opOf Γ key.node) key.inOut key.inOutIdx format
        u.formats = one ∨ u.formats = (Γ.inferOriginFormat key.node one).2) : Inferred Γ key format s u
  | together (h : toBeSet Γ s.formats key) (hclass : reflectionOf Γ key ≠ []) :
      Inferred Γ key format s (reflectionProcess Γ (reflectionOf Γ key) format s)

theorem inferTo_cases (Γ : FormatEnv) (key : RefCell) (format : Format) (s : FormatRefiner) : Inferred Γ key format s
    (inferTo Γ key format s) := by
  unfold inferTo
  cases hset : toBeSet Γ s.formats key with
  | false => exact .kept (by simp [hset])
  | true =>
    rw [Bool.not_true, if_neg Bool.false_ne_true]
    by_cases hempty : (reflectionOf Γ key).isEmpty
    · have hclass := List.isEmpty_iff.mp hempty
      rw [if_pos hempty]
      dsimp only
      split
      next => exact .alone hset hclass rfl rfl (fun n hn => .inl hn) (.inl rfl)
      next =>
        split
        next formats hresult => exact .alone hset hclass rfl rfl (fun n hn => .inl hn) (.inr (by rw [hresult]))
        next formats hresult =>
          exact .alone hset hclass rfl rfl (fun n hn => by simpa using hn) (.inr (by rw [hresult]))
    · rw [if_neg hempty]
      exact .together hset fun h => hempty (List.isEmpty_iff.mpr h)

section Visit

variable (key : RefCell) {format : Format} (hkept : format.kept = format) (hnd : format ≠ Format.nd) (hinfer : Γ.NeverResets)

include hkept hnd hinfer in
theorem advances_inferTo : s.formats.Advances (inferTo Γ key format s).formats := by
  have hcases := inferTo_cases Γ key format s
  generalize inferTo Γ key format s = t at hcases ⊢
  cases hcases with
  | kept => exact Advances.refl _
  | alone h hclass _ _ _ hformats =>
    have hone := advances_foldl Γ [key] hkept hnd s.formats
    rcases hformats with heq | heq
    · rw [heq]
      exact hone
    · rw [heq]
      exact Advances.trans hone (hinfer _ _)
  | together => exact advances_foldl Γ _ hkept hnd s.formats

include hkept hnd hinfer in
/-- A format is learnt where a place is set whose class, if it has one, holds one that is not known. -/
theorem learnsAt_inferTo (hset : toBeSet Γ s.formats key) (hclass : reflectionOf Γ key ≠ [] →
    ∃ c ∈ reflectionOf Γ key, s.formats.originAt (opOf Γ c.node) c.inOut c.inOutIdx = some Format.nd) :
    ∃ c ∈ key :: reflectionOf Γ key, LearnsAt Γ s.formats (inferTo Γ key format s).formats c := by
  have hcases := inferTo_cases Γ key format s
  generalize inferTo Γ key format s = t at hcases ⊢
  cases hcases with
  | kept h => exact absurd hset h
  | alone h _ _ _ _ hformats =>
    have hone : LearnsAt Γ s.formats _ key := learnsAt_foldl (l := [key]) hkept hnd mem_cons_self (originAt_of_toBeSet h)
    refine ⟨key, mem_cons_self, ?_⟩
    rcases hformats with heq | heq
    · rw [heq]
      exact hone
    · rw [heq]
      exact hone.advances (hinfer _ _)
  | together _ hne =>
    obtain ⟨c, hc, hunknown⟩ := hclass hne
    exact ⟨c, mem_cons_of_mem _ hc, learnsAt_foldl hkept hnd ((Γ.order.mem _ _).mpr hc) hunknown⟩

end Visit

/-! ## One step -/

/-- What a visit would set is a format that is known, at a node of the list. -/
theorem of_lookedAt (hclosed : Γ.Closed nodes) (hs : Sound Γ nodes begun s) {visit : FormatVisit} {key : RefCell} {format : Format}
    (hv : visit ∈ s.visits) (hl : lookedAt Γ s visit = some (key, format)) :
    key.node ∈ nodes ∧ format.kept = format ∧ format ≠ Format.nd := by
  have hwithin := hs.visits visit hv
  cases visit with
  | back node inAnchor =>
    obtain ⟨hnode, ha⟩ := hwithin
    simp only [lookedAt] at hl
    split at hl
    next => cases hl
    next d hd =>
      split at hl
      next => cases hl
      next hvalid =>
        obtain ⟨peer, hpeer, heq⟩ := Option.map_eq_some_iff.mp hl
        obtain ⟨rfl, rfl⟩ := Prod.mk.inj heq
        have hat : s.formats.originAt (opOf Γ node) .nodeIn (Γ.heap.anchor inAnchor).idx = some d.originFormat := by
          rw [TensorFormats.originAt, hd, Option.map_some]
        refine ⟨hclosed.sources node hnode inAnchor ha peer hpeer, hs.readable _ _ _ _ hat, fun hnd => hvalid ?_⟩
        simp [hnd]
  | forward => cases hl
  | forwardTo toBeSetFormat peer =>
    obtain ⟨rfl, rfl⟩ := Cmd.of_return hl
    exact hwithin

theorem Sound.next (hclosed : Γ.Closed nodes) (hinfer : Γ.NeverResets) (hs : Sound Γ nodes begun s) (hstep : step Γ s = some t) :
    Sound Γ nodes begun t := by
  cases step_cases hstep with
  | @looked visit visits key format hv hl =>
    obtain ⟨hkey, hkept, hnd⟩ := of_lookedAt hclosed hs (by rw [hv]; exact mem_cons_self) hl
    have hadv : s.formats.Advances _ := advances_inferTo (s := { s with visits }) key hkept hnd hinfer
    have hrest : ∀ v ∈ visits, VisitWithin Γ nodes v := fun v h => hs.visits v (by rw [hv]; exact mem_cons_of_mem _ h)
    have hcases := inferTo_cases Γ key format { s with visits }
    generalize inferTo Γ key format { s with visits } = t at hcases hadv ⊢
    refine ⟨hadv.readable hs.readable, fun op side index => (hadv.places op side index).trans (hs.places op side index), ?_, ?_, ?_⟩
    · intro n hn
      cases hcases with
      | kept => exact hs.queued n hn
      | alone _ _ _ _ hqueue => exact (hqueue n hn).elim (hs.queued n) fun h => h ▸ hkey
      | together =>
        rcases List.mem_append.mp hn with hn | hn
        · exact hs.queued n hn
        · obtain ⟨c, hc, rfl⟩ := List.mem_map.mp hn
          exact hclosed.related key hkey c ((Γ.order.mem _ _).mp hc)
    · cases hcases with
      | kept => exact hs.points
      | alone _ _ hpoints => exact hpoints ▸ hs.points
      | together => exact hs.points
    · cases hcases with
      | kept => exact hrest
      | alone _ _ _ hvisits => exact hvisits ▸ hrest
      | together => exact hrest
  | dropped hv =>
    exact ⟨hs.readable, hs.places, hs.queued, hs.points, fun v h => hs.visits v (by rw [hv]; exact mem_cons_of_mem _ h)⟩
  | @spread node a visits format hv hf hnd =>
    obtain ⟨hnode, ha⟩ := hs.visits (.forward node a) (by rw [hv]; exact mem_cons_self)
    refine ⟨hs.readable, hs.places, hs.queued, hs.points, fun v h => ?_⟩
    rcases List.mem_append.mp h with h | h
    · obtain ⟨b, hb, rfl⟩ := List.mem_map.mp h
      exact ⟨hclosed.readers node hnode a ha b hb, hs.readable _ _ _ _ hf, hnd⟩
    · exact hs.visits v (by rw [hv]; exact mem_cons_of_mem _ h)
  | @taken node rest hv hn =>
    have hnode : node ∈ nodes := hs.queued node (by rw [hn]; exact mem_cons_self)
    refine ⟨hs.readable, hs.places, fun n h => hs.queued n (by rw [hn]; exact mem_cons_of_mem _ h), hs.points, fun v h => ?_⟩
    rcases List.mem_append.mp h with h | h
    · obtain ⟨a, ha, rfl⟩ := List.mem_map.mp h
      exact ⟨hnode, ha⟩
    · obtain ⟨a, ha, rfl⟩ := List.mem_map.mp h
      exact ⟨hnode, ha⟩
  | @begun anchorNode anchorPoints _ _ hp =>
    refine ⟨hs.readable, hs.places, fun n h => ?_, fun n h => hs.points n (by rw [hp]; exact mem_cons_of_mem _ h), nofun⟩
    obtain rfl := List.mem_singleton.mp h
    exact hs.points n (by rw [hp]; exact mem_cons_self)

/-- A step learns a format if it queues nodes exactly when the class it sets holds one that is not known. -/
theorem learns_iff (hclosed : Γ.Closed nodes) (hinfer : Γ.NeverResets) (hs : Sound Γ nodes begun s) (hstep : step Γ s = some t) :
    (Queues s t → s.formats.Learns t.formats) ↔ ClassUnknown Γ s := by
  have hsame : ∀ u : FormatRefiner, u.nodes = s.nodes → ¬Queues s u := by
    rintro u hu ⟨queued, hne, hq, -⟩
    exact hne (List.self_eq_append_right.mp (hu.symm.trans hq))
  have hnothing : ¬Queues s t → (∀ visit visits, s.visits = visit :: visits → lookedAt Γ s visit = none) →
      ((Queues s t → s.formats.Learns t.formats) ↔ ClassUnknown Γ s) := by
    intro hq hlook
    refine iff_of_true (fun h => absurd h hq) fun visit visits key format hv hl => ?_
    rw [hlook visit visits hv] at hl
    cases hl
  cases step_cases hstep with
  | @looked visit visits key format hv hl =>
    obtain ⟨hkey, hkept, hnd⟩ := of_lookedAt hclosed hs (by rw [hv]; exact mem_cons_self) hl
    constructor
    · intro hlearns visit' visits' key' format' hv' hl' hset hclass
      rw [hv] at hv'
      obtain ⟨rfl, -⟩ := List.cons.inj hv'
      obtain ⟨rfl, rfl⟩ := Prod.mk.inj (Option.some.inj (hl.symm.trans hl'))
      have hcases := inferTo_cases Γ key format { s with visits }
      generalize inferTo Γ key format { s with visits } = t at hcases hlearns
      cases hcases with
      | kept h => exact absurd hset h
      | alone _ h => exact absurd h hclass
      | together _ _ =>
        have hturns : (Γ.order.turns (reflectionOf Γ key)).map RefCell.node ≠ [] := by
          obtain ⟨c, hc⟩ := exists_mem_of_ne_nil _ hclass
          exact ne_nil_of_mem (mem_map_of_mem ((Γ.order.mem _ _).mpr hc))
        obtain ⟨op, side, index, f, hunknown, hknown, hfnd⟩ := hlearns ⟨_, hturns, rfl, rfl⟩
        rw [originAt_reflectionProcess] at hknown
        split at hknown
        next hc =>
          obtain ⟨c, hc, rfl, rfl, rfl⟩ := hc
          exact ⟨c, hc, hunknown⟩
        next => exact absurd (Option.some.inj (hknown.symm.trans hunknown)) hfnd
    · intro hclass hqueues
      by_cases hset : toBeSet Γ s.formats key
      · obtain ⟨c, -, hc⟩ := learnsAt_inferTo (s := { s with visits }) key hkept hnd hinfer hset
          (hclass visit visits key format hv hl hset)
        exact hc.learns
      · have hkeep : inferTo Γ key format { s with visits } = { s with visits } := by
          unfold inferTo
          rw [if_pos (by simpa using hset)]
        rw [hkeep] at hqueues
        exact absurd hqueues (hsame _ rfl)
  | dropped hv hl =>
    refine hnothing (hsame _ rfl) fun visit' visits' hv' => ?_
    obtain ⟨rfl, -⟩ := List.cons.inj (hv.symm.trans hv')
    exact hl
  | spread hv =>
    refine hnothing (hsame _ rfl) fun visit' visits' hv' => ?_
    obtain ⟨rfl, -⟩ := List.cons.inj (hv.symm.trans hv')
    rfl
  | taken hv hn =>
    refine hnothing ?_ fun _ _ hv' => nomatch hv.symm.trans hv'
    rintro ⟨queued, -, hq, -⟩
    have hlen := congrArg List.length hq
    simp [hn] at hlen
    omega
  | begun hv _ hp =>
    refine hnothing ?_ fun _ _ hv' => nomatch hv.symm.trans hv'
    rintro ⟨-, -, -, hq⟩
    have hlen := congrArg List.length hq
    simp [hp] at hlen

/-! ## The measure -/

/-- The places of the nodes of a list. -/
def placesOf (Γ : FormatEnv) (nodes : List NodeId) (begun : TensorFormats) : Finset (OpId × InOutFlag × Int) :=
  (nodes.map (opOf Γ)).toFinset.biUnion fun op => ({.nodeIn, .nodeOut} : Finset InOutFlag).biUnion fun side =>
    (Finset.range (begun.descs op side).length).image fun i : Nat => (op, side, (i : Int))

theorem mem_placesOf {op : OpId} {side : InOutFlag} {index : Int} :
    (op, side, index) ∈ placesOf Γ nodes begun ↔ op ∈ nodes.map (opOf Γ) ∧ (begun.originAt op side index).isSome := by
  have hside : side ∈ ({.nodeIn, .nodeOut} : Finset InOutFlag) := by cases side <;> decide
  have hplace : (begun.originAt op side index).isSome ↔ ∃ i : Nat, i < (begun.descs op side).length ∧ (i : Int) = index := by
    unfold TensorFormats.originAt TensorFormats.find
    by_cases hneg : index < 0
    · simp only [hneg, if_true, Option.map_none, Option.isSome_none, Bool.false_eq_true, false_iff]
      rintro ⟨i, -, hi⟩
      omega
    · simp only [hneg, if_false, Option.isSome_map, isSome_getElem?]
      constructor
      · exact fun h => ⟨index.toNat, h, by omega⟩
      · rintro ⟨i, hi, rfl⟩
        simpa using hi
  unfold placesOf
  simp only [Finset.mem_biUnion, mem_toFinset, Finset.mem_image, Finset.mem_range, hplace]
  constructor
  · rintro ⟨op', hop, side', -, i, hi, heq⟩
    simp only [Prod.mk.injEq] at heq
    obtain ⟨rfl, rfl, rfl⟩ := heq
    exact ⟨hop, i, hi, rfl⟩
  · rintro ⟨hop, i, hi, rfl⟩
    exact ⟨op, hop, side, hside, i, hi, rfl⟩

/-- The places whose format is not known. -/
def unknowns (Γ : FormatEnv) (nodes : List NodeId) (begun s : TensorFormats) : Finset (OpId × InOutFlag × Int) :=
  (placesOf Γ nodes begun).filter fun p => s.originAt p.1 p.2.1 p.2.2 = some Format.nd

theorem unknowns_subset {u v : TensorFormats} (h : u.Advances v) : unknowns Γ nodes begun v ⊆ unknowns Γ nodes begun u := by
  rintro ⟨op, side, index⟩ hp
  obtain ⟨hmem, hunknown⟩ := Finset.mem_filter.mp hp
  refine Finset.mem_filter.mpr ⟨hmem, ?_⟩
  have hplace := h.places op side index
  rw [hunknown] at hplace
  obtain ⟨f, hf⟩ := Option.isSome_iff_exists.mp hplace.symm
  by_cases hnd : f = Format.nd
  · exact hnd ▸ hf
  · exact absurd hunknown (h.known op side index f hf hnd)

/-- Where a format is learnt fewer are not known. -/
theorem unknowns_lt {u v : TensorFormats} (h : u.Advances v)
    (hplaces : ∀ op side index, (u.originAt op side index).isSome = (begun.originAt op side index).isSome) {c : RefCell}
    (hc : c.node ∈ nodes) (hlearns : LearnsAt Γ u v c) : (unknowns Γ nodes begun v).card < (unknowns Γ nodes begun u).card := by
  obtain ⟨hunknown, f, hf, hnd⟩ := hlearns
  refine Finset.card_lt_card ⟨unknowns_subset h, fun hsub => ?_⟩
  have hmem : (opOf Γ c.node, c.inOut, c.inOutIdx) ∈ unknowns Γ nodes begun u := by
    refine Finset.mem_filter.mpr ⟨mem_placesOf.mpr ⟨mem_map_of_mem hc, ?_⟩, hunknown⟩
    rw [← hplaces, hunknown]
    rfl
  have hlater := (Finset.mem_filter.mp (hsub hmem)).2
  exact hnd (Option.some.inj (hf.symm.trans hlater))

/-- How many steps the visits take at most. -/
def weight (Γ : FormatEnv) : FormatVisit → Nat
  | .forward _ a => (OutDataAnchor.getPeerInDataAnchors Γ.heap a).length + 1
  | _ => 1

theorem weight_pos (visit : FormatVisit) : 0 < weight Γ visit := by
  cases visit <;> simp [weight]

/-- What inference brings down: the formats that are not known, the anchor points, the queue and the visits. -/
def measure (Γ : FormatEnv) (nodes : List NodeId) (begun : TensorFormats) (s : FormatRefiner) : Nat × Nat × Nat × Nat :=
  ((unknowns Γ nodes begun s.formats).card, s.anchorPoints.length, s.nodes.length, (s.visits.map (weight Γ)).sum)

/-- One measure is below another. -/
def Below : Nat × Nat × Nat × Nat → Nat × Nat × Nat × Nat → Prop :=
  Prod.Lex (· < ·) (Prod.Lex (· < ·) (Prod.Lex (· < ·) (· < ·)))

theorem wellFounded_below : WellFounded Below :=
  Nat.lt_wfRel.wf.prod_lex (Nat.lt_wfRel.wf.prod_lex (Nat.lt_wfRel.wf.prod_lex Nat.lt_wfRel.wf))

theorem below_of_step (hclosed : Γ.Closed nodes) (hinfer : Γ.NeverResets) (hs : Sound Γ nodes begun s) (hclass : ClassUnknown Γ s)
    (hstep : step Γ s = some t) : Below (measure Γ nodes begun t) (measure Γ nodes begun s) := by
  have hdrop : ∀ visit visits, s.visits = visit :: visits → (visits.map (weight Γ)).sum < (s.visits.map (weight Γ)).sum := by
    intro visit visits hv
    rw [hv, map_cons, sum_cons]
    exact Nat.lt_add_of_pos_left (weight_pos visit)
  cases step_cases hstep with
  | @looked visit visits key format hv hl =>
    obtain ⟨hkey, hkept, hnd⟩ := of_lookedAt hclosed hs (by rw [hv]; exact mem_cons_self) hl
    by_cases hset : toBeSet Γ s.formats key
    · obtain ⟨c, hc, hlearns⟩ := learnsAt_inferTo (s := { s with visits }) key hkept hnd hinfer hset
        (hclass visit visits key format hv hl hset)
      have hnode : c.node ∈ nodes := by
        rcases List.mem_cons.mp hc with rfl | hc
        · exact hkey
        · exact hclosed.related key hkey c hc
      exact .left _ _ (unknowns_lt (advances_inferTo (s := { s with visits }) key hkept hnd hinfer) hs.places hnode hlearns)
    · have hkeep : inferTo Γ key format { s with visits } = { s with visits } := by
        unfold inferTo
        rw [if_pos (by simpa using hset)]
      rw [hkeep]
      exact .right _ (.right _ (.right _ (hdrop visit visits hv)))
  | @dropped visit visits hv => exact .right _ (.right _ (.right _ (hdrop visit visits hv)))
  | @spread node a visits format hv =>
    refine .right _ (.right _ (.right _ ?_))
    have hones : ∀ peers : List AnchorId, ((peers.map (FormatVisit.forwardTo format)).map (weight Γ)).sum = peers.length := by
      intro peers
      rw [map_map, show weight Γ ∘ FormatVisit.forwardTo format = fun _ => 1 from rfl]
      simp
    rw [hv, map_append, sum_append, hones, map_cons, sum_cons, weight]
    omega
  | taken _ hn =>
    refine .right _ (.right _ (.left _ _ ?_))
    rw [hn, length_cons]
    exact Nat.lt_succ_self _
  | begun _ _ hp =>
    refine .right _ (.left _ _ ?_)
    rw [hp, length_cons]
    exact Nat.lt_succ_self _

/-! ## Runs -/

/-- Where there is no step an error was met, or all is done. -/
theorem of_step_none (hstep : Γ.InStep nodes begun) (hs : Sound Γ nodes begun s) (hnone : step Γ s = none) :
    s.failed = true ∨ s.visits = [] ∧ s.nodes = [] ∧ s.anchorPoints = [] := by
  unfold step at hnone
  by_cases hfailed : s.failed
  · exact .inl hfailed
  · right
    rw [if_neg hfailed] at hnone
    cases hvisits : s.visits with
    | nil =>
      cases hnodes : s.nodes with
      | cons => simp [hvisits, hnodes] at hnone
      | nil =>
        cases hpoints : s.anchorPoints with
        | cons => simp [hvisits, hnodes, hpoints] at hnone
        | nil => exact ⟨rfl, rfl, rfl⟩
    | cons visit visits =>
      rw [hvisits] at hnone
      cases visit with
      | back =>
        dsimp only at hnone
        split at hnone <;> cases hnone
      | forwardTo => cases hnone
      | forward node a =>
        -- an output without a descriptor
        obtain ⟨hnode, ha⟩ := hs.visits (.forward node a) (by rw [hvisits]; exact mem_cons_self)
        have hplace := (hs.places (opOf Γ node) .nodeOut (Γ.heap.anchor a).idx).trans (hstep node hnode a ha)
        dsimp only at hnone
        split at hnone
        next hfind => simp [TensorFormats.originAt, hfind] at hplace
        next => split at hnone <;> cases hnone

theorem sound_anchorProcess (Γ : FormatEnv) (hread : begun.Readable) {anchorNode : NodeId} (hanchor : anchorNode ∈ nodes) :
    Sound Γ nodes begun (anchorProcess begun anchorNode) where
  readable := hread
  places := fun _ _ _ => rfl
  queued := fun n hn => by
    obtain rfl := List.mem_singleton.mp hn
    exact hanchor
  points := nofun
  visits := nofun

theorem sound_after (hclosed : Γ.Closed nodes) (hinfer : Γ.NeverResets) {start : FormatRefiner} (hs : Sound Γ nodes begun start) :
    ∀ i s, after Γ i start = some s → Sound Γ nodes begun s := by
  intro i
  induction i with
  | zero =>
    intro s h
    obtain rfl := Option.some.inj h
    exact hs
  | succ i ih =>
    intro s h
    rw [after_succ] at h
    obtain ⟨m, hm, hstep⟩ := Option.bind_eq_some_iff.mp h
    exact Sound.next hclosed hinfer (ih m hm) hstep

end FormatTerminationAux

open FormatRefiner FormatTerminationAux FormatInferenceAux in
/-- From any anchor point of a graph, inference comes to an end and learns a format each time it queues nodes exactly when, in every
state it reaches, the class that is set with the place looked at, if it has one, holds a format that is not known. -/
theorem anchorProcess_finishes_iff (Γ : FormatEnv) (nodes : List NodeId) (formats : TensorFormats) (anchorNode : NodeId)
    (hclosed : Γ.Closed nodes) (hinfer : Γ.NeverResets) (hread : formats.Readable) (hstep : Γ.InStep nodes formats)
    (hanchor : anchorNode ∈ nodes) :
    Finishes Γ (anchorProcess formats anchorNode) ∧ LearnsWhenQueued Γ (anchorProcess formats anchorNode) ↔
      ∀ i s t, after Γ i (anchorProcess formats anchorNode) = some s → step Γ s = some t → ClassUnknown Γ s := by
  have hsound := sound_after hclosed hinfer (sound_anchorProcess Γ hread hanchor)
  constructor
  · rintro ⟨-, hlearns⟩ i s t hs ht
    exact (learns_iff hclosed hinfer (hsound i s hs) ht).mp (hlearns i s t hs ht)
  · intro hclass
    refine ⟨?_, fun i s t hs ht => (learns_iff hclosed hinfer (hsound i s hs) ht).mpr (hclass i s t hs ht)⟩
    have hnext : ∀ s t, (∃ i, after Γ i (anchorProcess formats anchorNode) = some s) → step Γ s = some t →
        (∃ i, after Γ i (anchorProcess formats anchorNode) = some t) := by
      rintro s t ⟨i, hi⟩ ht
      exact ⟨i + 1, by rw [after_succ, hi]; exact ht⟩
    obtain ⟨fuel, t, ht⟩ := Run.loop_stops_of_wellFounded wellFounded_below (measure Γ nodes formats)
      (P := fun s => ∃ i, after Γ i (anchorProcess formats anchorNode) = some s) (fun s t hs ht => by
        obtain ⟨i, hi⟩ := hs
        exact ⟨hnext s t ⟨i, hi⟩ ht, below_of_step hclosed hinfer (hsound i s hi) (hclass i s t hi ht) ht⟩) _ ⟨0, rfl⟩
    obtain ⟨⟨i, hi⟩, hnone⟩ := Run.loop_invariant hnext fuel _ t ⟨0, rfl⟩ ht
    exact ⟨fuel, t, ht, of_step_none hstep (hsound i t hi) hnone⟩

open FormatRefiner FormatTerminationAux in
/-- The classes set hold what is looked at where a place that has a class is in the class found for it. -/
theorem FormatRefiner.classUnknown_of_found (Γ : FormatEnv) (hfound : ∀ key, reflectionOf Γ key ≠ [] → key ∈ reflectionOf Γ key)
    (s : FormatRefiner) : ClassUnknown Γ s :=
  fun _ _ key _ _ _ hset hclass => ⟨key, hfound key hclass, originAt_of_toBeSet hset⟩

namespace FormatTerminationWitness

open FormatRefiner FormatTerminationAux

/-- Formats whose descriptors all have one that is read back are readable. -/
theorem readable_of_descs {formats : TensorFormats}
    (h : ∀ op side, ∀ d ∈ formats.descs op side, d.originFormat.kept = d.originFormat) :
    formats.Readable := by
  intro op side index f hf
  obtain ⟨d, hd, rfl⟩ := Option.map_eq_some_iff.mp hf
  unfold TensorFormats.find at hd
  split at hd
  next => cases hd
  next => exact h op side d (mem_of_getElem? hd)

/-- Where relations have one class it is all that is found. -/
theorem reflectionOf_of_one (Γ : FormatEnv) {l : List RefCell}
    (h : Γ.relations = RefRelations.buildLookUpTables Γ.address { values := [[l]] }) (key : RefCell) :
    reflectionOf Γ key = [] ∨ reflectionOf Γ key = l := by
  have hfind : (RefRelations.buildLookUpTables Γ.address { values := [[l]] }).lookUpTable.find
    (RefRelations.keyOf Γ.address key) = _ :=
    RefListsAux.find_table (RefRelations.keyOf Γ.address key) [l] []
  have hlook : reflectionOf Γ key = ((RefRelations.buildLookUpTables Γ.address { values := [[l]] }).lookUpTable.find
      (RefRelations.keyOf Γ.address key)).getD [] := by
    unfold reflectionOf RefRelations.lookUpRefRelations
    rw [h]
  rw [hlook, hfind]
  cases hone : [l].reverse.find? _ with
  | none => exact .inl rfl
  | some l' => exact .inr (List.mem_singleton.mp (mem_of_find?_eq_some hone))

section Related

open FormatInferenceWitness

theorem closed_env : env.Closed [0, 1, 2] := by
  have hsources : ∀ n ∈ [0, 1, 2], ∀ a ∈ (env.heap.node n).inDataAnchors, ∀ b ∈ (InDataAnchor.getPeerOutAnchor env.heap a).toList,
      env.heap.owner b ∈ [0, 1, 2] := by decide
  refine ⟨fun n hn a ha b hb => hsources n hn a ha b (by simp [hb]), by decide, fun key _ c hc => ?_⟩
  rcases reflectionOf_of_one env rfl key with h | h
  · rw [h] at hc
    cases hc
  · rw [h] at hc
    have hall : ∀ c ∈ related, c.node ∈ [0, 1, 2] := by decide
    exact hall c hc

theorem readable_start : (start Format.nd).formats.Readable := by
  refine readable_of_descs fun op side d hd => ?_
  have hall : d.originFormat = 2 ∨ d.originFormat = 0 := by
    cases side
    · change d ∈ (if op = 1 then _ else if op = 2 then _ else _) at hd
      split at hd
      · simp_all [Format.nd]
      · split at hd <;> simp_all [Format.nd]
    · change d ∈ (if op = 0 then _ else _) at hd
      split at hd <;> simp_all
  rcases hall with h | h <;> rw [h] <;> decide

theorem anchorProcess_finishes_start :
    Finishes env (anchorProcess (start Format.nd).formats 0) ∧ LearnsWhenQueued env (anchorProcess (start Format.nd).formats 0) ↔
      ∀ i s t, after env i (anchorProcess (start Format.nd).formats 0) = some s → step env s = some t → ClassUnknown env s :=
  anchorProcess_finishes_iff env [0, 1, 2] (start Format.nd).formats 0 closed_env (fun _ s => Advances.refl s) readable_start
    (by unfold FormatEnv.InStep; decide) (by decide)

end Related

/-- A loop of one input whose output feeds the second input of a node. -/
def loopHeap : Heap := { Heap.empty with
  op := fun o => if o = 0 then { OpDesc.make "n" "While" with subgraphInstanceNames := ["body"] } else OpDesc.make "n1" ""
  node := fun n => if n = 0 then { op := 0, inDataAnchors := [0], outDataAnchors := [1], inControlAnchor := 4, outControlAnchor := 5 }
    else { op := 1, inDataAnchors := [2, 3], inControlAnchor := 6, outControlAnchor := 7 }
  anchor := fun a => if a = 0 then { kind := .inData, ownerNode := 0, idx := 0 }
    else if a = 1 then { kind := .outData, ownerNode := 0, idx := 0, peerAnchors := [3] }
    else if a = 2 then { kind := .inData, ownerNode := 1, idx := 0 }
    else { kind := .inData, ownerNode := 1, idx := 1, peerAnchors := [1] }
  graph := fun _ => { nodes := [0, 1] } }

/-- The addresses of the nodes, by which the output of the loop and the second input of the node print the same key. -/
def loopAddress (n : NodeId) : Nat := if n = 0 then 140 else 40

def loopEnv : FormatEnv where
  heap := loopHeap
  relations := (RefRelations.relate loopHeap {} loopAddress 6 0 [0, 1] {}).1
  address := loopAddress
  order := { turns := List.dedup, nodup := nodup_dedup, mem := fun _ _ => mem_dedup }
  inferOriginFormat := fun _ formats => (true, formats)

/-- The formats of the loop are known, that of the second input of the node is not. -/
def loopFormats : TensorFormats where
  input := fun o => if o = 0 then [{ originFormat := 0, format := 0, dimNum := 4 }] else [{ dimNum := 4 }, { dimNum := 4 }]
  output := fun o => if o = 0 then [{ originFormat := 0, format := 0, dimNum := 4 }] else []

/-- The second input of the node, and the class of the loop. -/
def secondInput : RefCell := { nodeName := "n1", node := 1, inOut := .nodeIn, inOutIdx := 1 }
def loopCells : List RefCell :=
  [{ nodeName := "n", node := 0, inOut := .nodeIn, inOutIdx := 0 },
    { nodeName := "n", node := 0, inOut := .nodeOut, inOutIdx := 0 }]

theorem reflectionOf_secondInput : reflectionOf loopEnv secondInput = loopCells := by decide +kernel

theorem relate_loop : loopEnv.relations = RefRelations.buildLookUpTables loopAddress { values := [[loopCells]] } := by
  have hnodes : RefRelations.relateNodes loopHeap {} 6 0 [0, 1] {} = ({ values := [[loopCells]] }, none) := by decide +kernel
  change (RefRelations.relate loopHeap {} loopAddress 6 0 [0, 1] {}).1 = _
  unfold RefRelations.relate
  rw [hnodes]

theorem closed_loopEnv : loopEnv.Closed [0, 1] := by
  have hsources : ∀ n ∈ [0, 1], ∀ a ∈ (loopEnv.heap.node n).inDataAnchors,
      ∀ b ∈ (InDataAnchor.getPeerOutAnchor loopEnv.heap a).toList, loopEnv.heap.owner b ∈ [0, 1] := by decide
  refine ⟨fun n hn a ha b hb => hsources n hn a ha b (by simp [hb]), by decide, fun key _ c hc => ?_⟩
  rcases reflectionOf_of_one loopEnv relate_loop key with h | h
  · rw [h] at hc
    cases hc
  · rw [h] at hc
    have hall : ∀ c ∈ loopCells, c.node ∈ [0, 1] := by decide
    exact hall c hc

theorem readable_loop : loopFormats.Readable := by
  refine readable_of_descs fun op side d hd => ?_
  have hall : d.originFormat = 2 ∨ d.originFormat = 0 := by
    cases side
    · change d ∈ (if op = 0 then _ else _) at hd
      split at hd <;> simp_all [Format.nd]
    · change d ∈ (if op = 0 then _ else _) at hd
      split at hd <;> simp_all
  rcases hall with h | h <;> rw [h] <;> decide

/-- The loop goes round: its class is set to what it is, and it is queued. -/
structure Circling (s : FormatRefiner) : Prop where
  running : s.failed = false
  formats : s.formats = loopFormats
  points : s.anchorPoints = []
  nodes : ∀ n ∈ s.nodes, n = 0
  visits : ∀ v ∈ s.visits, v ∈ [FormatVisit.back 0 0, .forward 0 1, .forwardTo 0 3]
  left : 0 ∈ s.nodes ∨ FormatVisit.forward 0 1 ∈ s.visits ∨ FormatVisit.forwardTo 0 3 ∈ s.visits

theorem foldl_loopCells : (loopEnv.order.turns loopCells).foldl (fun formats cell =>
    formats.updateFormats (opOf loopEnv cell.node) cell.inOut cell.inOutIdx 0) loopFormats = loopFormats := by
  have hin : loopFormats.updateFormats 0 .nodeIn 0 0 = loopFormats := by
    change { loopFormats with input := Function.update loopFormats.input 0 (loopFormats.input 0) } = loopFormats
    rw [Function.update_eq_self]
  have hout : loopFormats.updateFormats 0 .nodeOut 0 0 = loopFormats := by
    change { loopFormats with output := Function.update loopFormats.output 0 (loopFormats.output 0) } = loopFormats
    rw [Function.update_eq_self]
  have hturns : loopEnv.order.turns loopCells = loopCells := by decide
  rw [hturns]
  exact (congrArg (TensorFormats.updateFormats · 0 .nodeOut 0 0) hin).trans hout

theorem Circling.next {s : FormatRefiner} (hs : Circling s) : ∃ t, step loopEnv s = some t ∧ Circling t := by
  obtain ⟨formats, points, nodes, visits, failed⟩ := s
  obtain ⟨rfl, rfl, rfl, hnodes, hvisits, hleft⟩ := hs
  cases visits with
  | nil =>
    cases nodes with
    | nil => simp at hleft
    | cons n nodes =>
      obtain rfl : n = 0 := hnodes n mem_cons_self
      have hall : ∀ v ∈ [FormatVisit.back 0 0, .forward 0 1], v ∈ [FormatVisit.back 0 0, .forward 0 1, .forwardTo 0 3] := by decide
      have hforward : FormatVisit.forward 0 1 ∈ [FormatVisit.back 0 0, .forward 0 1] := by decide
      exact ⟨_, rfl, rfl, rfl, rfl, fun m hm => hnodes m (mem_cons_of_mem _ hm), hall, .inr (.inl hforward)⟩
  | cons visit visits =>
    have hrest : ∀ v ∈ visits, v ∈ [FormatVisit.back 0 0, .forward 0 1, .forwardTo 0 3] :=
      fun v hv => hvisits v (mem_cons_of_mem _ hv)
    have hone := hvisits visit mem_cons_self
    simp only [mem_cons, not_mem_nil, or_false] at hone
    rcases hone with rfl | rfl | rfl
    · exact ⟨_, rfl, rfl, rfl, rfl, hnodes, hrest, by simpa using hleft⟩
    · refine ⟨_, rfl, rfl, rfl, rfl, hnodes, fun v hv => ?_, .inr (.inr mem_cons_self)⟩
      rcases List.mem_cons.mp hv with rfl | hv
      · simp
      · exact hrest v hv
    · let s : FormatRefiner := { formats := loopFormats, nodes, visits }
      have hstep : inferTo loopEnv secondInput 0 s = reflectionProcess loopEnv loopCells 0 s := by
        unfold inferTo
        rw [reflectionOf_secondInput]
        rfl
      refine ⟨_, congrArg some hstep, rfl, foldl_loopCells, rfl, fun n hn => ?_, hrest, .inl ?_⟩
      · rcases List.mem_append.mp hn with hn | hn
        · exact hnodes n hn
        · have hall : ∀ n ∈ (loopEnv.order.turns loopCells).map RefCell.node, n = 0 := by decide
          exact hall n hn
      · exact mem_append_right _ (by decide)

/-- The loop is queued again and again. -/
theorem anchorProcess_finishes_false :
    ¬ ∀ (Γ : FormatEnv) (nodes : List NodeId) (formats : TensorFormats) (anchorNode : NodeId), Γ.Closed nodes → Γ.NeverResets →
      formats.Readable → Γ.InStep nodes formats → anchorNode ∈ nodes → Finishes Γ (anchorProcess formats anchorNode) ∧
        LearnsWhenQueued Γ (anchorProcess formats anchorNode) := by
  intro hall
  obtain ⟨fuel, s, hs, -⟩ := (hall loopEnv [0, 1] loopFormats 0 closed_loopEnv (fun _ s => Advances.refl s) readable_loop
    (by unfold FormatEnv.InStep; decide) (by decide)).1
  have hstart : Circling (anchorProcess loopFormats 0) := ⟨rfl, rfl, rfl, by decide, nofun, .inl (by decide)⟩
  have hnext : ∀ s t, Circling s → step loopEnv s = some t → Circling t := by
    intro s t hs ht
    obtain ⟨u, hu, hcircling⟩ := hs.next
    obtain rfl := Option.some.inj (hu.symm.trans ht)
    exact hcircling
  obtain ⟨hcircling, hnone⟩ := Run.loop_invariant hnext fuel _ s hstart hs
  obtain ⟨t, ht, -⟩ := hcircling.next
  rw [hnone] at ht
  cases ht

end FormatTerminationWitness

end Metadef
