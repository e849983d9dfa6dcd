import Metadef.FormatRefiner

/-!
# Format inference and the formats that are known

A step that sets one place sets one whose format is not known. A step that sets all a place is related to looks only at the place.
So inference fills in what is not known exactly as long as no class it sets holds a format already, other than the one it is set to.
-/

namespace Metadef

/-- No origin format that is known is another one later. -/
def TensorFormats.Fills (s t : TensorFormats) : Prop :=
  ∀ op side index f, s.originAt op side index = some f → f ≠ Format.nd → t.originAt op side index = some f

/-- The functions of the operators fill in formats. -/
def FormatEnv.InfersUnknown (Γ : FormatEnv) : Prop := ∀ n (s : TensorFormats), s.Fills (Γ.inferOriginFormat n s).2

namespace FormatRefiner

variable (Γ : FormatEnv)

/-- No place the next step sets has a format that is known and another one. -/
def SetsUnknown (s : FormatRefiner) : Prop :=
  ∀ visit visits key format, s.visits = visit :: visits → lookedAt Γ s visit = some (key, format) → toBeSet Γ s.formats key →
    ∀ c ∈ reflectionOf Γ key, ∀ f, s.formats.originAt (opOf Γ c.node) c.inOut c.inOutIdx = some f →
      f = Format.nd ∨ f = format.kept

/-- Through all the steps from a state on, what is known stays. -/
def OnlyFills (start : FormatRefiner) : Prop :=
  ∀ i j s t, i ≤ j → after Γ i start = some s → after Γ j start = some t → s.formats.Fills t.formats

end FormatRefiner

namespace FormatInferenceAux

open FormatRefiner

variable {Γ : FormatEnv} {s t u : TensorFormats}

theorem Fills.refl (s : TensorFormats) : s.Fills s := fun _ _ _ _ h _ => h

theorem Fills.trans (h : s.Fills t) (h' : t.Fills u) : s.Fills u :=
  fun op side index f hf hnd => h' op side index f (h op side index f hf hnd) hnd

/-! ## Setting places -/

theorem originAt_updateFormats (s : TensorFormats) (op op' : OpId) (side side' : InOutFlag) (index index' : Int) (f : Format) :
    (s.updateFormats op side index f).originAt op' side' index' =
      if op' = op ∧ side' = side ∧ index' = index then (s.originAt op' side' index').map fun _ => f.kept
      else s.originAt op' side' index' := by
  have hdescs : (s.updateFormats op side index f).descs op' side' =
      if op' = op ∧ side' = side ∧ ¬ index < 0 then (s.descs op' side').modify index.toNat (·.setFormats f)
      else s.descs op' side' := by
    unfold TensorFormats.updateFormats
    by_cases hneg : index < 0
    · simp [hneg]
    · by_cases hop : op' = op
      · subst hop
        cases side <;> cases side' <;> simp [hneg, TensorFormats.descs]
      · cases side <;> cases side' <;> simp [hneg, hop, TensorFormats.descs]
  unfold TensorFormats.originAt TensorFormats.find
  rw [hdescs]
  by_cases hneg' : index' < 0
  · simp [hneg']
  · by_cases hplace : op' = op ∧ side' = side
    · by_cases hneg : index < 0
      · have hne : index' ≠ index := by omega
        simp [hplace, hneg, hneg', hne]
      · have hiff : index.toNat = index'.toNat ↔ index' = index := by omega
        simp only [hplace, hneg, hneg', not_false_eq_true, and_self, true_and, if_true, if_false, List.getElem?_modify, hiff]
        split
        next => cases (s.descs op side)[index'.toNat]? <;> rfl
        next => cases (s.descs op side)[index'.toNat]? <;> rfl
    · have hno : ¬ (op' = op ∧ side' = side ∧ ¬ index < 0) := fun hp => hplace ⟨hp.1, hp.2.1⟩
      have hno' : ¬ (op' = op ∧ side' = side ∧ index' = index) := fun hp => hplace ⟨hp.1, hp.2.1⟩
      rw [if_neg hno, if_neg hno']

/-- Setting all places of a list changes the format of each that is there. -/
theorem originAt_foldl (l : List RefCell) (f : Format) (op : OpId) (side : InOutFlag) (index : Int) (s : TensorFormats) :
    (l.foldl (fun formats cell => formats.updateFormats (opOf Γ cell.node) cell.inOut cell.inOutIdx f) s).originAt op side index =
      if ∃ c ∈ l, op = opOf Γ c.node ∧ side = c.inOut ∧ index = c.inOutIdx then (s.originAt op side index).map fun _ => f.kept
      else s.originAt op side index := by
  induction l generalizing s with
  | nil => simp
  | cons c l ih =>
    rw [List.foldl_cons, ih, originAt_updateFormats]
    by_cases hc : op = opOf Γ c.node ∧ side = c.inOut ∧ index = c.inOutIdx
    · have hall : ∃ d ∈ c :: l, op = opOf Γ d.node ∧ side = d.inOut ∧ index = d.inOutIdx := ⟨c, List.mem_cons_self, hc⟩
      simp only [if_pos hc, if_pos hall, Option.map_map]
      exact ite_self _
    · simp [hc]

/-- Setting all places of a list leaves what is known exactly when none of them has another format. -/
theorem fills_foldl_iff (l : List RefCell) (f : Format) (s : TensorFormats) :
    s.Fills (l.foldl (fun formats cell => formats.updateFormats (opOf Γ cell.node) cell.inOut cell.inOutIdx f) s) ↔
      ∀ c ∈ l, ∀ g, s.originAt (opOf Γ c.node) c.inOut c.inOutIdx = some g → g = Format.nd ∨ g = f.kept := by
  constructor
  · intro hfills c hc g hg
    by_cases hnd : g = Format.nd
    · exact .inl hnd
    · have h := hfills _ _ _ g hg hnd
      rw [originAt_foldl, if_pos ⟨c, hc, rfl, rfl, rfl⟩, hg] at h
      exact .inr (Option.some.inj h).symm
  · intro hl op side index g hg hnd
    rw [originAt_foldl]
    split
    next hc =>
      obtain ⟨c, hc, rfl, rfl, rfl⟩ := hc
      rw [hg, (hl c hc g hg).resolve_left hnd]
      rfl
    next => exact hg

/-! ## One step -/

/-- A visit to a place leaves what is known exactly when it sets no place that has another format. -/
theorem fills_inferTo_iff (hinfer : Γ.InfersUnknown) (key : RefCell) (format : Format) (s : FormatRefiner) :
    s.formats.Fills (inferTo Γ key format s).formats ↔
      (toBeSet Γ s.formats key → ∀ c ∈ reflectionOf Γ key, ∀ f,
        s.formats.originAt (opOf Γ c.node) c.inOut c.inOutIdx = some f → f = Format.nd ∨ f = format.kept) := by
  unfold inferTo
  cases hset : toBeSet Γ s.formats key with
  | false =>
    rw [Bool.not_false, if_pos rfl]
    exact ⟨nofun, fun _ => Fills.refl _⟩
  | true =>
    rw [Bool.not_true, if_neg Bool.false_ne_true]
    by_cases hempty : (reflectionOf Γ key).isEmpty
    · have hone : s.formats.Fills (s.formats.updateFormats (opOf Γ key.node) key.inOut key.inOutIdx format) := by
        refine (fills_foldl_iff [key] format s.formats).mpr fun c hc g hg => .inl ?_
        obtain rfl := List.mem_singleton.mp hc
        obtain ⟨d, hd, rfl⟩ := Option.map_eq_some_iff.mp hg
        unfold toBeSet TensorFormats.getDesc at hset
        simp only [hd, Option.getD_some, Bool.and_eq_true, decide_eq_true_eq] at hset
        exact hset.1.1
      have hnext := hinfer key.node (s.formats.updateFormats (opOf Γ key.node) key.inOut key.inOutIdx format)
      have hnone : ∀ c ∈ reflectionOf Γ key, False := by simp [List.isEmpty_iff.mp hempty]
      rw [if_pos hempty]
      refine ⟨fun _ _ c hc => (hnone c hc).elim, fun _ => ?_⟩
      dsimp only
      split
      next => exact hone
      next =>
        split
        next formats hresult => exact Fills.trans hone (by simpa [hresult] using hnext)
        next formats hresult => exact Fills.trans hone (by simpa [hresult] using hnext)
    · rw [if_neg hempty, reflectionProcess, fills_foldl_iff]
      simp only [Γ.order.mem, true_implies]

/-- What a step can do. It looks at a place and infers to it, or drops a visit, which for an output is followed by one for each input
it feeds; or it takes the next node, or the next anchor point. -/
inductive Stepped (Γ : FormatEnv) (s : FormatRefiner) : FormatRefiner → Prop where
  | looked {visit visits key format} (hv : s.visits = visit :: visits) (hl : lookedAt Γ s visit = some (key, format)) :
      Stepped Γ s (inferTo Γ key format { s with visits })
  | dropped {visit visits} (hv : s.visits = visit :: visits) (hl : lookedAt Γ s visit = none) : Stepped Γ s { s with visits }
  | spread {node a visits format} (hv : s.visits = .forward node a :: visits)
      (hf : s.formats.originAt (opOf Γ node) .nodeOut (Γ.heap.anchor a).idx = some format) (hnd : format ≠ Format.nd) :
      Stepped Γ s { s with visits := (OutDataAnchor.getPeerInDataAnchors Γ.heap a).map (FormatVisit.forwardTo format) ++ visits }
  | taken {node nodes} (hv : s.visits = []) (hn : s.nodes = node :: nodes) :
      Stepped Γ s { s with nodes, visits := (Γ.heap.node node).inDataAnchors.map (FormatVisit.back node) ++
        (Γ.heap.node node).outDataAnchors.map (FormatVisit.forward node) }
  | begun {anchorNode anchorPoints} (hv : s.visits = []) (hn : s.nodes = []) (hp : s.anchorPoints = anchorNode :: anchorPoints) :
      Stepped Γ s { s with anchorPoints, nodes := [anchorNode], visits := [] }

theorem step_cases {s t : FormatRefiner} (hstep : step Γ s = some t) : Stepped Γ s t := by
  unfold step at hstep
  by_cases hfailed : s.failed
  · simp [hfailed] at hstep
  · rw [if_neg hfailed] at hstep
    cases hvisits : s.visits with
    | nil =>
      rw [hvisits] at hstep
      cases hnodes : s.nodes with
      | cons node nodes =>
        rw [hnodes] at hstep
        obtain rfl := Option.some.inj hstep
        exact .taken hvisits hnodes
      | nil =>
        cases hpoints : s.anchorPoints with
        | nil => simp [hnodes, hpoints] at hstep
        | cons anchorNode anchorPoints =>
          rw [hnodes, hpoints] at hstep
          obtain rfl := Option.some.inj hstep
          exact .begun hvisits hnodes hpoints
    | cons visit visits =>
      rw [hvisits] at hstep
      cases visit with
      | back node inAnchor | forwardTo format peer =>
        dsimp only at hstep
        split at hstep
        next hlook =>
          obtain rfl := Option.some.inj hstep
          exact .dropped hvisits hlook
        next hlook =>
          obtain rfl := Option.some.inj hstep
          exact .looked hvisits hlook
      | forward node outDataAnchor =>
        dsimp only at hstep
        split at hstep
        next => cases hstep
        next outputDesc hdesc =>
          split at hstep
          next =>
            obtain rfl := Option.some.inj hstep
            exact .dropped hvisits rfl
          next hnd =>
            obtain rfl := Option.some.inj hstep
            refine .spread hvisits ?_ hnd
            rw [TensorFormats.originAt, hdesc]
            rfl

/-- A step leaves what is known exactly when it sets no place that has another format. -/
theorem fills_step_iff (hinfer : Γ.InfersUnknown) {s t : FormatRefiner} (hstep : step Γ s = some t) :
    s.formats.Fills t.formats ↔ SetsUnknown Γ s := by
  have hkept : t.formats = s.formats → (∀ visit visits, s.visits = visit :: visits → lookedAt Γ s visit = none) →
      (s.formats.Fills t.formats ↔ SetsUnknown Γ s) := by
    intro hformats hlook
    rw [hformats]
    refine ⟨fun _ visit visits key format hv hl => ?_, fun _ => Fills.refl _⟩
    rw [hlook visit visits hv] at hl
    cases hl
  cases step_cases hstep with
  | @looked visit visits key format hvisits hlook =>
    rw [show s.formats = ({ s with visits } : FormatRefiner).formats from rfl, fills_inferTo_iff hinfer]
    constructor
    · intro h visit' visits' key' format' hv hl
      rw [hvisits] at hv
      obtain ⟨rfl, -⟩ := List.cons.inj hv
      obtain ⟨rfl, rfl⟩ := Prod.mk.inj (Option.some.inj (hlook.symm.trans hl))
      exact h
    · exact fun h => h visit visits key format hvisits hlook
  | dropped hvisits hlook =>
    refine hkept rfl fun visit' visits' hv => ?_
    obtain ⟨rfl, -⟩ := List.cons.inj (hvisits.symm.trans hv)
    exact hlook
  | spread hvisits =>
    refine hkept rfl fun visit' visits' hv => ?_
    obtain ⟨rfl, -⟩ := List.cons.inj (hvisits.symm.trans hv)
    rfl
  | taken hvisits => exact hkept rfl fun _ _ hv => nomatch hvisits.symm.trans hv
  | begun hvisits => exact hkept rfl fun _ _ hv => nomatch hvisits.symm.trans hv

/-! ## A run -/

theorem after_succ (n : Nat) (s : FormatRefiner) : after Γ (n + 1) s = (after Γ n s).bind (step Γ) := by
  induction n generalizing s with
  | zero => simp [after]
  | succ n ih =>
    rw [after]
    cases hs : step Γ s with
    | none => simp [after, hs]
    | some t => simpa [after, hs] using ih t

/-- Where each step leaves what is known, all of them do. -/
theorem fills_after {start : FormatRefiner}
    (hsteps : ∀ i s t, after Γ i start = some s → step Γ s = some t → s.formats.Fills t.formats) :
    OnlyFills Γ start := by
  intro i j s t hij hs ht
  induction hij generalizing t with
  | refl =>
    obtain rfl := Option.some.inj (hs.symm.trans ht)
    exact Fills.refl _
  | @step j hij ih =>
    rw [after_succ] at ht
    obtain ⟨m, hm, ht⟩ := Option.bind_eq_some_iff.mp ht
    exact Fills.trans (ih m hm) (hsteps j m t hm ht)

end FormatInferenceAux

open FormatInferenceAux FormatRefiner in
/-- Whatever the graph, the relations and the anchor points, and wherever inference starts from: what is known stays through the whole
run exactly when no step sets a place that has another format. -/
theorem onlyFills_iff (Γ : FormatEnv) (hinfer : Γ.InfersUnknown) (start : FormatRefiner) :
    OnlyFills Γ start ↔ ∀ i s t, after Γ i start = some s → step Γ s = some t → SetsUnknown Γ s := by
  constructor
  · intro hfills i s t hs hstep
    refine (fills_step_iff hinfer hstep).mp (hfills i (i + 1) s t (Nat.le_succ i) hs ?_)
    rw [after_succ, hs]
    exact hstep
  · exact fun hsets => fills_after fun i s t hs hstep => (fills_step_iff hinfer hstep).mpr (hsets i s t hs hstep)

namespace FormatInferenceWitness

open FormatRefiner

/-- A node that runs a subgraph, fed by another: its input is the input and the output of the data in the subgraph. -/
def heap : Heap := { Heap.empty with
  op := fun o => OpDesc.make (if o = 0 then "conv" else if o = 1 then "cond" else "data") ""
  node := fun n => if n = 0 then { op := 0, outDataAnchors := [0], inControlAnchor := 2, outControlAnchor := 3 }
    else if n = 1 then { op := 1, inDataAnchors := [1], inControlAnchor := 4, outControlAnchor := 5 }
    else { op := 2, inControlAnchor := 6, outControlAnchor := 7 }
  anchor := fun a => if a = 0 then { kind := .outData, ownerNode := 0, idx := 0, peerAnchors := [1] }
    else { kind := .inData, ownerNode := 1, idx := 0, peerAnchors := [0] } }

def related : List RefCell :=
  [{ nodeName := "cond", node := 1, inOut := .nodeIn, inOutIdx := 0 },
    { nodeName := "data", node := 2, inOut := .nodeIn, inOutIdx := 0 },
    { nodeName := "data", node := 2, inOut := .nodeOut, inOutIdx := 0 }]

def env : FormatEnv where
  heap := heap
  relations := RefRelations.buildLookUpTables id { values := [[related]] }
  address := id
  order := { turns := List.dedup, nodup := List.nodup_dedup, mem := fun _ _ => List.mem_dedup }
  inferOriginFormat := fun _ formats => (true, formats)

/-- The format of the output of the first node is NCHW; that of the input of the data is known to be another one, NHWC, or not. -/
def start (dataFormat : Format) : FormatRefiner where
  formats :=
    { input := fun o => if o = 1 then [{ dimNum := 4 }] else if o = 2 then [{ originFormat := dataFormat, dimNum := 4 }] else []
      output := fun o => if o = 0 then [{ originFormat := 0, format := 0, dimNum := 4 }] else [] }
  anchorPoints := [0]

theorem infersUnknown : env.InfersUnknown := fun _ s => FormatInferenceAux.Fills.refl s

theorem onlyFills_start : OnlyFills env (start Format.nd) ↔
    ∀ i s t, after env i (start Format.nd) = some s → step env s = some t → SetsUnknown env s :=
  onlyFills_iff env infersUnknown (start Format.nd)

/-- A known format is replaced by that of the input it is related to. -/
theorem onlyFills_false : ¬ ∀ Γ : FormatEnv, Γ.InfersUnknown → ∀ s, OnlyFills Γ s := by
  intro hall
  obtain ⟨t, ht, hformat⟩ : ∃ t, after env 4 (start 1) = some t ∧ t.formats.originAt 2 .nodeIn 0 = some 0 := ⟨_, rfl, rfl⟩
  have hkept := hall env infersUnknown (start 1) 0 4 (start 1) t (Nat.zero_le 4) rfl ht 2 .nodeIn 0 1 rfl (by decide)
  rw [hformat] at hkept
  cases hkept

end FormatInferenceWitness

end Metadef
