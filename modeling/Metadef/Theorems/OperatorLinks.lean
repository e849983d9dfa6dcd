import Metadef.Operator

/-!
# Operator links are mirrored

A run of calls keeps the two sides of every link in agreement, with each input linked to the source last accepted for it, and
changes nothing where it rejects, exactly when no call that enters a source meets an input that has one or that it rejects.
-/

namespace Metadef

open Function OrderedMap

open Cmd

namespace Operators

/-- How often an output of an operator lists an input of another. -/
def linkCount (s : Operators) (a : ImplId) (out : String) (b : ImplId) (name : String) : Nat :=
  match (s.impl a).outputLinks.find out with
  | none => 0
  | some dsts => dsts.countP fun e => e.name = name ∧ e.owner = some b

/-- Whether an input holds an output of an operator as its source. -/
def leadsTo (s : Operators) (b : ImplId) (name : String) (a : ImplId) (out : String) : Bool :=
  ((s.impl b).inputLink.find name).any fun io => io.owner = some a ∧ io.name = out

end Operators

open Operators

/-- Two operators hold the same links. -/
structure OperatorImpl.SameLinks (x y : OperatorImpl) : Prop where
  inputLink : x.inputLink = y.inputLink
  outputLinks : x.outputLinks = y.outputLinks
  controlInputLink : x.controlInputLink = y.controlInputLink
  controlOutputLink : x.controlOutputLink = y.controlOutputLink

/-- The operators, with the source of the last accepted call for each input. -/
structure LinkHistory where
  links : Operators
  last : ImplId → String → Option OpIO

namespace OperatorCall

/-- The input a call sets, with the source it names. -/
def sets (s : Operators) : OperatorCall → Option (ImplId × String × OpIO)
  | setInput this dstName srcOprt => do
    let src ← srcOprt
    let srcDesc ← (s.impl src).opDesc
    return (this, dstName, { name := (s.op srcDesc).getOutputNameByIndex 0, index := 0, owner := some src })
  | setInputHandler this dstName outHandler => do
    let io ← outHandler
    return (this, dstName, io)
  | addControlInput _ _ => none

end OperatorCall

namespace LinkHistory

/-- Both sides of every link agree, an input leads to the source last accepted for it, and so do control links. -/
structure Linked (s : LinkHistory) : Prop where
  mirrored : ∀ a out b name, s.links.linkCount a out b name = if s.links.leadsTo b name a out then 1 else 0
  latest : ∀ b name, (s.links.impl b).inputLink.find name = s.last b name
  control : ∀ a b, a ∈ (s.links.impl b).controlInputLink ↔ b ∈ (s.links.impl a).controlOutputLink
  controlInOnce : ∀ b, (s.links.impl b).controlInputLink.Nodup
  controlOutOnce : ∀ a, (s.links.impl a).controlOutputLink.Nodup

/-- The history after a call that was accepted or not and left operators. -/
def after (s : LinkHistory) (c : OperatorCall) (r : Bool × Operators) : LinkHistory :=
  { links := r.2
    last := match r.1, c.sets s.links with
      | true, some (this, dstName, io) => fun b name => if b = this ∧ name = dstName then some io else s.last b name
      | _, _ => s.last }

def step (s : LinkHistory) (c : OperatorCall) : Option LinkHistory := (c.run s.links).map (s.after c)

end LinkHistory

namespace OperatorCall

/-- What a call should leave: links that agree, and the links there were when it is rejected. -/
structure Leaves (c : OperatorCall) (s : LinkHistory) (r : Bool × Operators) : Prop where
  linked : (s.after c r).Linked
  rejected : r.1 = false → ∀ i, (s.links.impl i).SameLinks (r.2.impl i)

/-- An input whose source is entered: it has none yet and has a descriptor; or, where the name is no input of the operator or the
source is not valid, it has one. -/
def FitsInput (s : Operators) (this : ImplId) (dst : OpId) (dstName : String) (valid : Bool) : Prop :=
  if (s.op dst).getInputIndexByName dstName < 0 ∨ valid = false then (s.impl this).inputLink.contains dstName = true
  else (s.op dst).getInputIndexByName dstName < (s.op dst).inputsDesc.length ∧
    (s.impl this).inputLink.contains dstName = false

/-- Whether the owner of an output has a descriptor. -/
def validHandler (s : Operators) (io : OpIO) : Bool := io.owner.any fun src => (s.impl src).opDesc.isSome

/-- A call that, where it gets past its first checks, enters a source at an input that fits. -/
def Fits (s : Operators) : OperatorCall → Prop
  | setInput this dstName srcOprt => dstName ≠ "" → ∀ dst ∈ (s.impl this).opDesc, ∀ src ∈ srcOprt,
    ∀ srcDesc ∈ (s.impl src).opDesc, (s.op srcDesc).getOutputsSize = 1 → (s.op srcDesc).getOutputNameByIndex 0 ≠ "" →
      FitsInput s this dst dstName true
  | setInputHandler this dstName outHandler => dstName ≠ "" → ∀ io ∈ outHandler, ∀ dst ∈ (s.impl this).opDesc,
    FitsInput s this dst dstName (validHandler s io)
  | addControlInput _ _ => True

instance (s : Operators) (this : ImplId) (dst : OpId) (dstName : String) (valid : Bool) :
    Decidable (FitsInput s this dst dstName valid) := by
  unfold FitsInput
  infer_instance

instance (s : Operators) (c : OperatorCall) : Decidable (c.Fits s) := by
  cases c <;> simp only [Fits] <;> infer_instance

end OperatorCall

namespace OperatorAux

open OperatorCall

variable {s t : Operators} {this src a b : ImplId} {dst srcDesc : OpId} {dstName name out : String} {io : OpIO}

/-! ## The two sides -/

theorem insertInputLink_find (s : Operators) (this : ImplId) (dstName : String) (io : OpIO) (b : ImplId) (name : String) :
    ((s.insertInputLink this dstName io).impl b).inputLink.find name =
      if b = this ∧ name = dstName ∧ (s.impl this).inputLink.contains dstName = false then some io
      else (s.impl b).inputLink.find name := by
  unfold Operators.insertInputLink
  rw [setImpl_impl, update_apply]
  by_cases hb : b = this
  · subst hb
    simp only [if_true, true_and]
    exact find_insert _ _ _ _
  · simp [hb]

theorem insertInputLink_other (s : Operators) (this : ImplId) (dstName : String) (io : OpIO) (b : ImplId) :
    ((s.insertInputLink this dstName io).impl b).outputLinks = (s.impl b).outputLinks ∧
      ((s.insertInputLink this dstName io).impl b).controlInputLink = (s.impl b).controlInputLink ∧
      ((s.insertInputLink this dstName io).impl b).controlOutputLink = (s.impl b).controlOutputLink := by
  unfold Operators.insertInputLink
  rw [setImpl_impl, update_apply]
  split
  · rename_i hb
    subst hb
    exact ⟨rfl, rfl, rfl⟩
  · exact ⟨rfl, rfl, rfl⟩

/-- A source entered at an input that has one changes nothing. -/
theorem insertInputLink_of_contains (h : (s.impl this).inputLink.contains dstName = true) :
    (s.insertInputLink this dstName io).impl = s.impl := by
  have hsame : (s.impl this).inputLink.insert dstName io = (s.impl this).inputLink := by simp [OrderedMap.insert, h]
  unfold Operators.insertInputLink
  rw [setImpl_impl, hsame]
  exact update_eq_self this s.impl

theorem updateLinkMapImpl_other (s : Operators) (src : ImplId) (srcName : String) (e : OpIO) (b : ImplId) :
    ((s.updateLinkMapImpl src srcName e).impl b).inputLink = (s.impl b).inputLink ∧
      ((s.updateLinkMapImpl src srcName e).impl b).controlInputLink = (s.impl b).controlInputLink ∧
      ((s.updateLinkMapImpl src srcName e).impl b).controlOutputLink = (s.impl b).controlOutputLink := by
  unfold Operators.updateLinkMapImpl
  split
  all_goals
    rw [setImpl_impl, update_apply]
    split
    · rename_i hb
      subst hb
      exact ⟨rfl, rfl, rfl⟩
    · exact ⟨rfl, rfl, rfl⟩

variable {e : OpIO} {ok : Bool} {srcOprt : Option ImplId}

theorem updateLinkMapImpl_of_ne {n : String} (ha : a ≠ src) : (s.updateLinkMapImpl src n e).impl a = s.impl a := by
  unfold Operators.updateLinkMapImpl
  split <;> exact update_of_ne ha _ _

/-- Entering an input at an output counts it once more there. -/
theorem updateLinkMapImpl_linkCount (s : Operators) (src : ImplId) (srcName : String) (e : OpIO) (a : ImplId) (out : String)
    (b : ImplId) (name : String) :
    (s.updateLinkMapImpl src srcName e).linkCount a out b name =
      s.linkCount a out b name + if (a = src ∧ out = srcName) ∧ e.name = name ∧ e.owner = some b then 1 else 0 := by
  unfold Operators.linkCount Operators.updateLinkMapImpl
  by_cases ha : a = src
  · subst ha
    cases hf : (s.impl a).outputLinks.find srcName with
    | none =>
      rw [setImpl_impl, update_self]
      simp only [find_insert, OrderedMap.find_eq_none.mp hf, and_true, true_and]
      by_cases hout : out = srcName
      · subst hout
        by_cases he : e.name = name ∧ e.owner = some b <;> simp [hf, he]
      · simp [hout]
    | some dsts =>
      rw [setImpl_impl, update_self]
      simp only [find_assign, true_and]
      by_cases hout : out = srcName
      · subst hout
        by_cases he : e.name = name ∧ e.owner = some b <;> simp [hf, he, List.countP_append]
      · simp [hout]
  · have hsame := updateLinkMapImpl_of_ne (s := s) (n := srcName) (e := e) ha
    unfold Operators.updateLinkMapImpl at hsame
    rw [hsame]
    simp [ha]

theorem Linked.congr {s : LinkHistory} (hl : s.Linked) (h : t.impl = s.links.impl) :
    ({ links := t, last := s.last } : LinkHistory).Linked := by
  have hcount : ∀ a out b name, t.linkCount a out b name = s.links.linkCount a out b name := fun a out b name => by
    unfold Operators.linkCount
    rw [h]
  have hleads : ∀ b name a out, t.leadsTo b name a out = s.links.leadsTo b name a out := fun b name a out => by
    unfold Operators.leadsTo
    rw [h]
  refine ⟨fun a out b name => ?_, fun b name => ?_, fun a b => ?_, fun b => ?_, fun a => ?_⟩
  · rw [hcount, hleads]
    exact hl.mirrored a out b name
  · rw [h]
    exact hl.latest b name
  · rw [h]
    exact hl.control a b
  · rw [h]
    exact hl.controlInOnce b
  · rw [h]
    exact hl.controlOutOnce a

/-! ## What the functions do -/

/-- What is left once a source is entered at an input: the call is refused with the source there, or the input is entered at the
source as well, and the call accepted where the input has a descriptor. -/
inductive Entered (s : Operators) (this : ImplId) (dst : OpId) (dstName : String) (io : OpIO) : Bool → Operators → Prop
  | refused (hno : (s.op dst).getInputIndexByName dstName < 0 ∨ validHandler s io = false) :
      Entered s this dst dstName io false (s.insertInputLink this dstName io)
  | linked {src : ImplId} {t : Operators} (hi : 0 ≤ (s.op dst).getInputIndexByName dstName) (hv : validHandler s io = true)
      (howner : io.owner = some src)
      (ht : t.impl = ((s.insertInputLink this dstName io).updateLinkMapImpl src io.name
        { name := dstName, index := (s.op dst).getInputIndexByName dstName, owner := some this }).impl) :
      Entered s this dst dstName io (decide ((s.op dst).getInputIndexByName dstName < (s.op dst).inputsDesc.length)) t

theorem linkInput_makes {dstIndex : Int} {srcName : String}
    (hr : OperatorImpl.linkInput this dst dstName dstIndex src srcDesc srcName s = some (ok, t)) :
    ok = ((s.op dst).inputNameIdx.find dstName).any (· < (s.op dst).inputsDesc.length) ∧
      t.impl = (s.updateLinkMapImpl src srcName { name := dstName, index := dstIndex, owner := some this }).impl := by
  have hop : ∀ (u : Operators) (x : OpIO), (u.updateLinkMapImpl src srcName x).op = u.op := fun u x => by
    unfold Operators.updateLinkMapImpl
    split <;> rfl
  have himpl : ∀ (u : Operators) (x : OpDesc) (y : OpIO), ((u.setOp dst x).updateLinkMapImpl src srcName y).impl =
      (u.updateLinkMapImpl src srcName y).impl := fun u x y => by
    unfold Operators.updateLinkMapImpl
    rw [setOp_impl]
    split <;> rfl
  simp only [OperatorImpl.linkInput, modify_bind_apply, get_bind_apply, set_bind_apply, pure_apply, Option.some.injEq,
    Prod.mk.injEq] at hr
  obtain ⟨rfl, rfl⟩ := hr
  refine ⟨?_, by rw [setOp_impl, himpl]⟩
  rw [hop, setOp_op, update_self]
  unfold OpDesc.updateInputDesc OpDesc.updateInputDescAt OpDesc.setInputConst
  cases (s.op dst).inputNameIdx.find dstName with
  | none => rfl
  | some i =>
    by_cases hlt : i < (s.op dst).inputsDesc.length <;> simp [hlt]

/-- The index of an input is below the number of descriptors when the name leads to one of them. -/
theorem any_find_eq (op : OpDesc) (name : String) (h : 0 ≤ op.getInputIndexByName name) :
    (op.inputNameIdx.find name).any (· < op.inputsDesc.length) = decide (op.getInputIndexByName name < op.inputsDesc.length) := by
  unfold OpDesc.getInputIndexByName at h ⊢
  cases hf : op.inputNameIdx.find name with
  | none => simp [hf] at h
  | some i => simp

/-- What an overload does once its first checks are passed. -/
theorem entered_of_link (howner : io.owner = some src) (hsrc : (s.impl src).opDesc = some srcDesc)
    (hi : 0 ≤ (s.op dst).getInputIndexByName dstName)
    (hr : OperatorImpl.linkInput this dst dstName ((s.op dst).getInputIndexByName dstName) src srcDesc io.name
      (s.insertInputLink this dstName io) = some (ok, t)) : Entered s this dst dstName io ok t := by
  obtain ⟨rfl, ht⟩ := linkInput_makes hr
  have hv : validHandler s io = true := by simp [validHandler, howner, hsrc]
  have hop : (s.insertInputLink this dstName io).op = s.op := rfl
  rw [hop, any_find_eq _ _ hi]
  exact .linked hi hv howner ht

/-- What a call that sets an input does: nothing, where it stops at its first checks, or else it enters the source it names. -/
def Sets (s : Operators) (c : OperatorCall) (ok : Bool) (t : Operators) : Prop :=
  (ok = false ∧ t = s ∧ c.Fits s) ∨
    ∃ this dst dstName io, c.sets s = some (this, dstName, io) ∧ Entered s this dst dstName io ok t ∧
      (c.Fits s ↔ FitsInput s this dst dstName (validHandler s io))

theorem setInputImpl_sets
    (hr : OperatorImpl.setInputImpl this dstName srcOprt s = some (ok, t)) : Sets s (.setInput this dstName srcOprt) ok t := by
  unfold OperatorImpl.setInputImpl at hr
  by_cases hname : dstName = ""
  · obtain ⟨rfl, rfl⟩ : false = ok ∧ s = t := by simpa [hname] using hr
    exact .inl ⟨rfl, rfl, fun h => absurd hname h⟩
  rw [if_neg hname, get_bind_apply] at hr
  cases hdst : (s.impl this).opDesc with
  | none =>
    obtain ⟨rfl, rfl⟩ : false = ok ∧ s = t := by simpa [hdst] using hr
    exact .inl ⟨rfl, rfl, fun _ dst hd => by simp [hdst] at hd⟩
  | some dst =>
    cases srcOprt with
    | none =>
      obtain ⟨rfl, rfl⟩ : false = ok ∧ s = t := by simpa [hdst] using hr
      exact .inl ⟨rfl, rfl, fun _ dst _ src hs => by simp at hs⟩
    | some src =>
      cases hsrc : (s.impl src).opDesc with
      | none =>
        obtain ⟨rfl, rfl⟩ : false = ok ∧ s = t := by simpa [hdst, hsrc] using hr
        refine .inl ⟨rfl, rfl, fun _ dst _ x hx srcDesc hd => ?_⟩
        obtain rfl : src = x := Option.some.inj hx
        simp [hsrc] at hd
      | some srcDesc =>
        have hfits : (setInput this dstName (some src)).Fits s ↔
            ((s.op srcDesc).getOutputsSize = 1 → (s.op srcDesc).getOutputNameByIndex 0 ≠ "" →
              FitsInput s this dst dstName true) := by
          simp [Fits, hname, hdst, hsrc]
        simp only [hdst, hsrc] at hr
        by_cases hone : (s.op srcDesc).getOutputsSize = 1
        case neg =>
          obtain ⟨rfl, rfl⟩ : false = ok ∧ s = t := by simpa [hone] using hr
          exact .inl ⟨rfl, rfl, hfits.mpr fun h => absurd h hone⟩
        by_cases hnamed : (s.op srcDesc).getOutputNameByIndex 0 = ""
        · obtain ⟨rfl, rfl⟩ : false = ok ∧ s = t := by simpa [hone, hnamed] using hr
          exact .inl ⟨rfl, rfl, hfits.mpr fun _ h => absurd hnamed h⟩
        rw [if_neg (not_not.mpr hone), if_neg hnamed, modify_bind_apply] at hr
        refine .inr ⟨this, dst, dstName, { name := (s.op srcDesc).getOutputNameByIndex 0, index := 0, owner := some src },
          by simp [sets, hsrc], ?_, ?_⟩
        · by_cases hi : (s.op dst).getInputIndexByName dstName < 0
          · rw [if_pos hi] at hr
            obtain ⟨rfl, rfl⟩ := of_return hr
            exact .refused (.inl hi)
          · rw [if_neg hi] at hr
            exact entered_of_link rfl hsrc (Int.not_lt.mp hi) hr
        · rw [hfits]
          simp [hone, hnamed, validHandler, hsrc]

theorem setInputImplHandler_sets {outHandler : Option OpIO}
    (hr : OperatorImpl.setInputImplHandler this dstName outHandler s = some (ok, t)) :
    Sets s (.setInputHandler this dstName outHandler) ok t := by
  unfold OperatorImpl.setInputImplHandler at hr
  by_cases hname : dstName = ""
  · obtain ⟨rfl, rfl⟩ : false = ok ∧ s = t := by simpa [hname] using hr
    exact .inl ⟨rfl, rfl, fun h => absurd hname h⟩
  rw [if_neg hname] at hr
  cases outHandler with
  | none =>
    obtain ⟨rfl, rfl⟩ : false = ok ∧ s = t := by simpa using hr
    exact .inl ⟨rfl, rfl, fun _ io hio => by simp at hio⟩
  | some io =>
    simp only [get_bind_apply] at hr
    cases hdst : (s.impl this).opDesc with
    | none =>
      obtain ⟨rfl, rfl⟩ : false = ok ∧ s = t := by simpa [hdst] using hr
      exact .inl ⟨rfl, rfl, fun _ io _ dst hd => by simp [hdst] at hd⟩
    | some dst =>
      simp only [hdst, modify_bind_apply] at hr
      refine .inr ⟨this, dst, dstName, io, rfl, ?_, by simp [Fits, hname, hdst]⟩
      by_cases hi : (s.op dst).getInputIndexByName dstName < 0
      · rw [if_pos hi] at hr
        obtain ⟨rfl, rfl⟩ : false = ok ∧ _ = t := by simpa using hr
        exact .refused (.inl hi)
      · rw [if_neg hi] at hr
        cases howner : io.owner with
        | none =>
          obtain ⟨rfl, rfl⟩ : false = ok ∧ _ = t := by simpa [howner] using hr
          exact .refused (.inr (by simp [validHandler, howner]))
        | some src =>
          cases hsrc : (s.impl src).opDesc with
          | none =>
            obtain ⟨rfl, rfl⟩ : false = ok ∧ _ = t := by simpa [howner, hsrc] using hr
            exact .refused (.inr (by simp [validHandler, howner, hsrc]))
          | some srcDesc =>
            simp only [howner, hsrc] at hr
            exact entered_of_link howner hsrc (Int.not_lt.mp hi) hr

/-! ## Calls -/

variable {s : LinkHistory} {t : Operators} {c : OperatorCall} {ok : Bool}

/-- A rejected call that keeps the operators as they are leaves what it should. -/
theorem leaves_of_same (hs : s.Linked) (h : t.impl = s.links.impl) : c.Leaves s (false, t) := by
  refine ⟨Linked.congr hs h, fun _ i => ?_⟩
  rw [h]
  exact ⟨rfl, rfl, rfl, rfl⟩

theorem linkCount_insertInputLink (s : Operators) (this : ImplId) (dstName : String) (io : OpIO) (a : ImplId) (out : String)
    (b : ImplId) (name : String) :
    (s.insertInputLink this dstName io).linkCount a out b name = s.linkCount a out b name := by
  unfold Operators.linkCount
  rw [(insertInputLink_other s this dstName io a).1]

/-- An input linked to a source leaves links that agree exactly when it had none. -/
theorem linked_iff (hs : s.Linked) (hsets : c.sets s.links = some (this, dstName, io)) (howner : io.owner = some src)
    (hname : e.name = dstName) (hthis : e.owner = some this)
    (ht : t.impl = ((s.links.insertInputLink this dstName io).updateLinkMapImpl src io.name e).impl) :
    (s.after c (true, t)).Linked ↔ (s.links.impl this).inputLink.contains dstName = false := by
  have hfind : ∀ b name, (t.impl b).inputLink.find name =
      if b = this ∧ name = dstName ∧ (s.links.impl this).inputLink.contains dstName = false then some io
      else (s.links.impl b).inputLink.find name := fun b name => by
    rw [ht, (updateLinkMapImpl_other _ _ _ _ _).1]
    exact insertInputLink_find _ _ _ _ _ _
  have hcount : ∀ a out b name, t.linkCount a out b name =
      s.links.linkCount a out b name + if (a = src ∧ out = io.name) ∧ dstName = name ∧ this = b then 1 else 0 :=
    fun a out b name => by
      have hupdate := updateLinkMapImpl_linkCount (s.links.insertInputLink this dstName io) src io.name e a out b name
      simp only [linkCount_insertInputLink, hname, hthis, Option.some.injEq] at hupdate
      rw [← hupdate]
      unfold Operators.linkCount
      rw [ht]
  have hlast : ∀ b name, (s.after c (true, t)).last b name = if b = this ∧ name = dstName then some io else s.last b name :=
    fun b name => by simp only [LinkHistory.after, hsets]
  constructor
  · intro hafter
    by_contra hcontains
    -- the entry that stays is the new source, which its output then lists twice
    have hold : (s.links.impl this).inputLink.find dstName = some io := by
      have hlatest := hafter.latest this dstName
      rw [hlast, if_pos ⟨rfl, rfl⟩] at hlatest
      have hkept := hfind this dstName
      rw [if_neg fun h => hcontains h.2.2] at hkept
      exact hkept.symm.trans hlatest
    have hleads : s.links.leadsTo this dstName src io.name = true := by
      simp [Operators.leadsTo, hold, howner]
    have hbefore := hs.mirrored src io.name this dstName
    have hafterCount := hafter.mirrored src io.name this dstName
    rw [hleads, if_pos rfl] at hbefore
    have htwo : t.linkCount src io.name this dstName = 2 := by
      rw [hcount, hbefore]
      simp
    have hle : (s.after c (true, t)).links.linkCount src io.name this dstName ≤ 1 := by
      rw [hafterCount]
      split <;> omega
    have hsame : (s.after c (true, t)).links = t := rfl
    rw [hsame, htwo] at hle
    omega
  · intro hnew
    have hnone : (s.links.impl this).inputLink.find dstName = none := OrderedMap.find_eq_none.mpr hnew
    have hcontrols : ∀ i, (t.impl i).controlInputLink = (s.links.impl i).controlInputLink ∧
        (t.impl i).controlOutputLink = (s.links.impl i).controlOutputLink := fun i => by
      rw [ht, (updateLinkMapImpl_other _ _ _ _ _).2.1, (updateLinkMapImpl_other _ _ _ _ _).2.2]
      exact (insertInputLink_other _ _ _ _ _).2
    have hleads : ∀ b name a out, t.leadsTo b name a out =
        if b = this ∧ name = dstName then decide (io.owner = some a ∧ io.name = out) else s.links.leadsTo b name a out :=
      fun b name a out => by
        unfold Operators.leadsTo
        rw [hfind]
        by_cases hin : b = this ∧ name = dstName
        · rw [if_pos ⟨hin.1, hin.2, hnew⟩, if_pos hin]
          rfl
        · rw [if_neg fun h => hin ⟨h.1, h.2.1⟩, if_neg hin]
    refine ⟨fun a out b name => ?_, fun b name => ?_, fun a b => ?_, fun b => ?_, fun a => ?_⟩
    · show t.linkCount a out b name = if t.leadsTo b name a out then 1 else 0
      rw [hcount, hs.mirrored a out b name, hleads]
      by_cases hin : b = this ∧ name = dstName
      · have hold : s.links.leadsTo b name a out = false := by
          rw [hin.1, hin.2]
          simp [Operators.leadsTo, hnone]
        rw [hold, if_pos hin, hin.1, hin.2, howner]
        simp only [Bool.false_eq_true, if_false, Nat.zero_add, and_true, Option.some.injEq, decide_eq_true_eq]
        by_cases ha : a = src ∧ out = io.name
        · rw [if_pos ha, if_pos ⟨ha.1.symm, ha.2.symm⟩]
        · rw [if_neg ha, if_neg fun h => ha ⟨h.1.symm, h.2.symm⟩]
      · have hne : ¬ ((a = src ∧ out = io.name) ∧ dstName = name ∧ this = b) := fun h => hin ⟨h.2.2.symm, h.2.1.symm⟩
        rw [if_neg hin, if_neg hne, Nat.add_zero]
    · rw [hlast]
      show (t.impl b).inputLink.find name = _
      rw [hfind]
      by_cases hin : b = this ∧ name = dstName
      · rw [if_pos ⟨hin.1, hin.2, hnew⟩, if_pos hin]
      · rw [if_neg fun h => hin ⟨h.1, h.2.1⟩, if_neg hin]
        exact hs.latest b name
    · show a ∈ (t.impl b).controlInputLink ↔ b ∈ (t.impl a).controlOutputLink
      rw [(hcontrols b).1, (hcontrols a).2]
      exact hs.control a b
    · show (t.impl b).controlInputLink.Nodup
      rw [(hcontrols b).1]
      exact hs.controlInOnce b
    · show (t.impl a).controlOutputLink.Nodup
      rw [(hcontrols a).2]
      exact hs.controlOutOnce a

/-- Entering a source at an input leaves what it should exactly when the input fits. -/
theorem entered_leaves_iff (hs : s.Linked) (hsets : c.sets s.links = some (this, dstName, io))
    (he : Entered s.links this dst dstName io ok t) :
    c.Leaves s (ok, t) ↔ FitsInput s.links this dst dstName (validHandler s.links io) := by
  unfold FitsInput
  cases he with
  | refused hno =>
    rw [if_pos hno]
    constructor
    · intro hleft
      by_contra hcontains
      have hnew : (s.links.impl this).inputLink.contains dstName = false := by simpa using hcontains
      have hsame := (hleft.rejected rfl this).inputLink
      have hfind := insertInputLink_find s.links this dstName io this dstName
      rw [if_pos ⟨rfl, rfl, hnew⟩, ← hsame, OrderedMap.find_eq_none.mpr hnew] at hfind
      cases hfind
    · exact fun hcontains => leaves_of_same hs (insertInputLink_of_contains hcontains)
  | linked hi hv howner ht =>
    rw [if_neg (by rw [hv]; simpa using hi)]
    by_cases hlt : (s.links.op dst).getInputIndexByName dstName < (s.links.op dst).inputsDesc.length
    · rw [decide_eq_true hlt]
      constructor
      · exact fun hleft => ⟨hlt, (linked_iff hs hsets howner rfl rfl ht).mp hleft.linked⟩
      · exact fun hnew => ⟨(linked_iff hs hsets howner rfl rfl ht).mpr hnew.2, fun h => by cases h⟩
    · rw [decide_eq_false hlt]
      refine iff_of_false (fun hleft => ?_) fun h => hlt h.1
      -- the input was entered at the source before the call was rejected
      rename_i src
      have hsame := (hleft.rejected rfl src).outputLinks
      have hcount : t.linkCount src io.name this dstName = s.links.linkCount src io.name this dstName := by
        unfold Operators.linkCount
        rw [← hsame]
      have hupdate := updateLinkMapImpl_linkCount (s.links.insertInputLink this dstName io) src io.name
        { name := dstName, index := (s.links.op dst).getInputIndexByName dstName, owner := some this } src io.name this dstName
      rw [linkCount_insertInputLink] at hupdate
      unfold Operators.linkCount at hcount hupdate
      rw [← ht] at hupdate
      simp only [and_self, if_true] at hupdate
      omega

/-- A control link that is new is entered on both sides. -/
theorem linked_control (hs : s.Linked) (hnew : src ∉ (s.links.impl this).controlInputLink)
    (hlinks : ∀ i, (t.impl i).inputLink = (s.links.impl i).inputLink ∧ (t.impl i).outputLinks = (s.links.impl i).outputLinks)
    (hin : ∀ i, (t.impl i).controlInputLink =
      if i = this then (s.links.impl this).controlInputLink ++ [src] else (s.links.impl i).controlInputLink)
    (hout : ∀ i, (t.impl i).controlOutputLink =
      if i = src then (s.links.impl src).controlOutputLink ++ [this] else (s.links.impl i).controlOutputLink) :
    ({ links := t, last := s.last } : LinkHistory).Linked := by
  refine ⟨fun a out b name => ?_, fun b name => ?_, fun a b => ?_, fun b => ?_, fun a => ?_⟩
  · have hmirrored := hs.mirrored a out b name
    unfold Operators.linkCount Operators.leadsTo at hmirrored ⊢
    rw [(hlinks a).2, (hlinks b).1]
    exact hmirrored
  · show (t.impl b).inputLink.find name = s.last b name
    rw [(hlinks b).1]
    exact hs.latest b name
  · show a ∈ (t.impl b).controlInputLink ↔ b ∈ (t.impl a).controlOutputLink
    have hold := hs.control a b
    rw [hin, hout]
    by_cases hb : b = this
    · by_cases ha : a = src
      · simp [hb, ha]
      · subst hb
        simpa [ha] using hold
    · by_cases ha : a = src
      · subst ha
        simpa [hb] using hold
      · simpa [hb, ha] using hold
  · show (t.impl b).controlInputLink.Nodup
    rw [hin]
    split
    · exact (hs.controlInOnce this).append (List.nodup_singleton src) (by simpa using hnew)
    · exact hs.controlInOnce b
  · show (t.impl a).controlOutputLink.Nodup
    have hnot : this ∉ (s.links.impl src).controlOutputLink := fun h => hnew ((hs.control src this).mpr h)
    rw [hout]
    split
    · exact (hs.controlOutOnce src).append (List.nodup_singleton this) (by simpa using hnot)
    · exact hs.controlOutOnce a

theorem control_leaves (hs : s.Linked) (hr : OperatorImpl.addControlInputImp this srcOprt s.links = some (ok, t)) :
    (addControlInput this srcOprt).Leaves s (ok, t) := by
  unfold OperatorImpl.addControlInputImp at hr
  have hafter : s.after (addControlInput this srcOprt) (ok, t) = { links := t, last := s.last } := by
    cases ok <;> rfl
  cases srcOprt with
  | none =>
    obtain ⟨rfl, rfl⟩ : false = ok ∧ s.links = t := by simpa using hr
    exact leaves_of_same hs rfl
  | some src =>
    simp only [get_bind_apply] at hr
    by_cases hmem : src ∈ (s.links.impl this).controlInputLink
    · obtain ⟨rfl, rfl⟩ : true = ok ∧ s.links = t := by simpa [hmem] using hr
      exact ⟨hafter ▸ Linked.congr hs rfl, fun h => by cases h⟩
    · rw [if_neg (by simpa using hmem)] at hr
      simp only [modify_bind_apply, pure_apply, Option.some.injEq, Prod.mk.injEq] at hr
      obtain ⟨rfl, rfl⟩ := hr
      refine ⟨?_, fun h => by cases h⟩
      rw [hafter]
      -- the source may be the operator itself, which then has both entries
      refine linked_control hs hmem (fun i => ?_) (fun i => ?_) fun i => ?_ <;>
        simp only [setImpl_impl, update_apply] <;> split_ifs <;> simp_all

theorem sets_leaves_iff (hs : s.Linked) (h : Sets s.links c ok t) : c.Leaves s (ok, t) ↔ c.Fits s.links := by
  rcases h with ⟨rfl, rfl, hfits⟩ | ⟨this, dst, dstName, io, hsets, he, hfits⟩
  · exact iff_of_true (leaves_of_same hs rfl) hfits
  · rw [hfits]
    exact entered_leaves_iff hs hsets he

/-- Where the links agree, a call leaves what it should exactly when it fits. -/
theorem operator_leaves_iff (hs : s.Linked) (hr : c.run s.links = some (ok, t)) : c.Leaves s (ok, t) ↔ c.Fits s.links := by
  cases c with
  | setInput this dstName srcOprt => exact sets_leaves_iff hs (setInputImpl_sets hr)
  | setInputHandler this dstName outHandler => exact sets_leaves_iff hs (setInputImplHandler_sets hr)
  | addControlInput this srcOprt => exact iff_of_true (control_leaves hs hr) trivial

/-! ## Every call returns -/

theorem linkInput_returns (s : Operators) (this : ImplId) (dst : OpId) (dstName : String) (dstIndex : Int) (src : ImplId)
    (srcDesc : OpId) (srcName : String) : ∃ r, OperatorImpl.linkInput this dst dstName dstIndex src srcDesc srcName s = some r :=
  ⟨_, rfl⟩

theorem operator_run_returns (c : OperatorCall) (s : Operators) : ∃ r, c.run s = some r := by
  cases c with
  | setInput this dstName srcOprt =>
    simp only [OperatorCall.run, OperatorImpl.setInputImpl]
    split
    · exact ⟨_, rfl⟩
    · rw [get_bind_apply]
      cases (s.impl this).opDesc with
      | none => exact ⟨_, rfl⟩
      | some dst =>
        cases srcOprt with
        | none => exact ⟨_, rfl⟩
        | some src =>
          cases hsrc : (s.impl src).opDesc with
          | none => exact ⟨_, by simp only [hsrc]; rfl⟩
          | some srcDesc =>
            simp only [hsrc]
            split
            · exact ⟨_, rfl⟩
            · split
              · exact ⟨_, rfl⟩
              · rw [modify_bind_apply]
                split
                · exact ⟨_, rfl⟩
                · exact linkInput_returns _ _ _ _ _ _ _ _
  | setInputHandler this dstName outHandler =>
    simp only [OperatorCall.run, OperatorImpl.setInputImplHandler]
    split
    · exact ⟨_, rfl⟩
    · cases outHandler with
      | none => exact ⟨_, rfl⟩
      | some io =>
        simp only [get_bind_apply]
        cases (s.impl this).opDesc with
        | none => exact ⟨_, rfl⟩
        | some dst =>
          simp only [modify_bind_apply]
          split
          · exact ⟨_, rfl⟩
          · cases io.owner with
            | none => exact ⟨_, rfl⟩
            | some src =>
              cases hsrc : (s.impl src).opDesc with
              | none => exact ⟨_, by simp only [hsrc]; rfl⟩
              | some srcDesc =>
                simp only [hsrc]
                exact linkInput_returns _ _ _ _ _ _ _ _
  | addControlInput this srcOprt =>
    simp only [OperatorCall.run, OperatorImpl.addControlInputImp]
    cases srcOprt with
    | none => exact ⟨_, rfl⟩
    | some src =>
      simp only [get_bind_apply]
      split
      · exact ⟨_, rfl⟩
      · exact ⟨_, rfl⟩

end OperatorAux

open OperatorAux

/-- From operators whose links agree, every call of a run leaves links that agree, with each input linked to the source last
accepted for it, and changes none where it is rejected, exactly when every call fits. -/
theorem operator_links_iff (calls : List OperatorCall) (s : LinkHistory) (hs : s.Linked) :
    (∃ t, Run.exec LinkHistory.step calls s = some t) ∧
      (Run.Each LinkHistory.step (fun s c => ∀ r, c.run s.links = some r → c.Leaves s r) calls s ↔
        Run.Each LinkHistory.step (fun s c => c.Fits s.links) calls s) := by
  refine ⟨Run.exec_returns (fun s c => ?_) calls s, Run.each_congr (P := LinkHistory.Linked) ?_ ?_ calls s hs⟩
  · obtain ⟨r, hr⟩ := operator_run_returns c s.links
    exact ⟨s.after c r, by rw [LinkHistory.step, hr]; rfl⟩
  · intro s c hl
    obtain ⟨r, hr⟩ := operator_run_returns c s.links
    rw [← operator_leaves_iff hl hr]
    exact ⟨fun hall => hall r hr, fun hleft r' hr' => Option.some.inj (hr.symm.trans hr') ▸ hleft⟩
  · intro s c t _ hall hstep
    obtain ⟨r, hr, rfl⟩ := Option.map_eq_some_iff.mp hstep
    exact (hall r hr).linked

namespace OperatorWitness

/-- Operators without links are linked. -/
theorem linked_fresh (s : Operators) (h : ∀ i, (s.impl i).SameLinks {}) :
    ({ links := s, last := fun _ _ => none } : LinkHistory).Linked := by
  refine ⟨fun a out b name => ?_, fun b name => ?_, fun a b => ?_, fun b => ?_, fun a => ?_⟩
  · simp [Operators.linkCount, Operators.leadsTo, (h a).outputLinks, (h b).inputLink, OrderedMap.find]
  · simp [(h b).inputLink, OrderedMap.find]
  · simp [(h b).controlInputLink, (h a).controlOutputLink]
  · simp [(h b).controlInputLink]
  · simp [(h a).controlOutputLink]

/-- Operator 0 has an output "y", the others an input "x" and an input "w". -/
def pair : Operators :=
  { op := fun o => if o = 0 then { outputsDesc := [{}], outputNameIdx := [("y", 0)] }
      else { inputsDesc := [{}, {}], inputNameIdx := [("w", 1), ("x", 0)] }
    impl := fun i => { opDesc := some i } }

theorem linked_pair : ({ links := pair, last := fun _ _ => none } : LinkHistory).Linked :=
  linked_fresh pair fun _ => ⟨rfl, rfl, rfl, rfl⟩

/-- Two inputs are set, and a control link is asked for twice. -/
theorem operator_links_iff_pair :
    Run.Each LinkHistory.step (fun s c => ∀ r, c.run s.links = some r → c.Leaves s r)
      [.setInput 1 "x" (some 0), .setInputHandler 1 "w" (some { name := "y", index := 0, owner := some 0 }),
        .addControlInput 1 (some 0), .addControlInput 1 (some 0)] { links := pair, last := fun _ _ => none } :=
  (operator_links_iff _ _ linked_pair).2.mpr (by decide +kernel)

/-- An input set twice is listed twice at its source, and a name that is no input keeps the source it was refused. -/
theorem operator_links_false :
    (¬ ∀ calls t, Run.exec LinkHistory.step calls { links := pair, last := fun _ _ => none } = some t →
      ∀ a out b name, t.links.linkCount a out b name = if t.links.leadsTo b name a out then 1 else 0) ∧
    ¬ ∀ (c : OperatorCall) (r : Bool × Operators), c.run pair = some r → r.1 = false →
      ∀ i, (pair.impl i).inputLink = (r.2.impl i).inputLink := by
  constructor
  · intro hall
    have hcount := hall [.setInput 1 "x" (some 0), .setInput 1 "x" (some 0)] _ rfl 0 "y" 1 "x"
    exact absurd hcount (by decide +kernel)
  · intro hall
    have hsame := hall (.setInput 1 "z" (some 0)) _ rfl rfl 1
    exact absurd hsame (by decide +kernel)

end OperatorWitness

end Metadef
