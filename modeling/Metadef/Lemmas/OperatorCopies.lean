import Metadef.Lemmas.GraphCopies
import Metadef.Theorems.OperatorLinks

/-!
# What copying operators leaves

Each operator of a list is copied to a new one without links, over a copy of its descriptor. Links are then made between the
copies, and those that were made are told by the names and outputs of the descriptors alone.
-/

namespace Metadef

open List Function Operators OrderedMap FrontEnd

/-- Whether an output of an operator lists an input. -/
def Operators.Feeds (s : Operators) (a : ImplId) (out : String) (e : OpIO) : Prop :=
  ∃ dsts, (s.impl a).outputLinks.find out = some dsts ∧ e ∈ dsts

/-- Operators keep their descriptors, and these their outputs. -/
structure Operators.DescsKept (s t : Operators) : Prop where
  op : ∀ o, (s.op o).SameOutputs (t.op o)
  opDesc : ∀ i, (t.impl i).opDesc = (s.impl i).opDesc

namespace CopiesAux

open Cmd GraphUtils OpDescUtils OperatorAux

variable {s t u : FrontEnd} {h₀ : Heap} {copies : Copies}

/-! ## Commands on a part -/

theorem onHeap_eq_some {α : Type} {c : Cmd Heap α} {a : α} :
    FrontEnd.onHeap c s = some (a, t) ↔ ∃ h, c s.heap = some (a, h) ∧ t = { s with heap := h } := by
  unfold FrontEnd.onHeap
  rw [Option.map_eq_some_iff]
  constructor
  · rintro ⟨⟨a', h⟩, hc, he⟩
    obtain ⟨rfl, rfl⟩ := Prod.mk.inj he
    exact ⟨h, hc, rfl⟩
  · rintro ⟨h, hc, rfl⟩
    exact ⟨(a, h), hc, rfl⟩

theorem onOperators_eq_some {α : Type} {c : Cmd Operators α} {a : α} :
    FrontEnd.onOperators c s = some (a, t) ↔ ∃ o, c s.operators = some (a, o) ∧ t = s.withOperators o := by
  unfold FrontEnd.onOperators
  rw [Option.map_eq_some_iff]
  constructor
  · rintro ⟨⟨a', o⟩, hc, he⟩
    obtain ⟨rfl, rfl⟩ := Prod.mk.inj he
    exact ⟨o, hc, rfl⟩
  · rintro ⟨o, hc, rfl⟩
    exact ⟨(a, o), hc, rfl⟩

/-! ## Copies of operators -/

/-- A command that makes the copy of an operator over a descriptor: no operator changes, and the copy has no links. -/
structure MakesCopy (h₀ : Heap) (o : OpId) (s : FrontEnd) (x : OperatorMembers) (t : FrontEnd) : Prop where
  implCount : t.implCount = s.implCount
  impl : t.impl = s.impl
  heap : s.heap.OutputsKept t.heap
  copy : ∃ new < t.heap.opCount, x.toOperatorImpl = { opDesc := some new } ∧ (h₀.op o).IsCopy (t.heap.op new)

/-- A new copy of a descriptor. -/
theorem copyOp_spec {o new : OpId} (hk : h₀.OutputsKept s.heap) (ho : o < h₀.opCount) (hr : copyOp o s = some (new, t)) :
    t.implCount = s.implCount ∧ t.impl = s.impl ∧ s.heap.OutputsKept t.heap ∧ new < t.heap.opCount ∧
      (h₀.op o).IsCopy (t.heap.op new) := by
  simp only [copyOp, get_bind_apply] at hr
  cases hcopy : copyDesc (s.heap.op o) with
  | none => simp [hcopy] at hr
  | some copy =>
    simp only [hcopy] at hr
    obtain ⟨_, u, hu, hr⟩ := bind_eq_some.mp hr
    obtain ⟨h, hh, rfl⟩ := onHeap_eq_some.mp hu
    obtain rfl : LinkCall.makeOp copy s.heap = h := by simpa using hh
    obtain ⟨rfl, rfl⟩ := of_return hr
    refine ⟨rfl, rfl, OutputsKept.makeOp _ _, Nat.lt_succ_self _, ?_⟩
    have hself : (LinkCall.makeOp copy s.heap).op s.heap.opCount = copy := by
      rw [LinkCall.makeOp, Heap.setOp_op, if_pos rfl]
    exact hself.symm ▸ IsCopy.congr (copyDesc_isCopy hcopy) (hk.op o ho) (SameOutputs.refl _)

theorem copyOperatorOfDesc_spec {o : OpId} {x : OperatorMembers} (hk : h₀.OutputsKept s.heap) (hg : Good h₀ s.heap copies)
    (ho : o < h₀.opCount) (hr : copyOperatorOfDesc copies o s = some (x, t)) : MakesCopy h₀ o s x t := by
  unfold copyOperatorOfDesc at hr
  cases hfind : copies.opDescOld2New.find o with
  | some new =>
    obtain ⟨rfl, rfl⟩ : _ = x ∧ s = t := by simpa [hfind] using hr
    obtain ⟨hlt, hcopy⟩ := hg.descs o new hfind
    exact ⟨rfl, rfl, OutputsKept.refl _, new, hlt, rfl, hcopy⟩
  | none =>
    simp only [hfind] at hr
    obtain ⟨new, u, hu, hr⟩ := bind_eq_some.mp hr
    obtain ⟨rfl, rfl⟩ := of_return hr
    obtain ⟨hcount, himpl, hheap, hlt, hcopy⟩ := copyOp_spec hk ho hu
    exact ⟨hcount, himpl, hheap, new, hlt, rfl, hcopy⟩

theorem copyOperatorOfNode_spec {o : OpId} {node : NodeId} {x : OperatorMembers} (hk : h₀.OutputsKept s.heap)
    (hg : Good h₀ s.heap copies) (ho : o < h₀.opCount) (hn : node < h₀.nodeCount) (hop : (s.heap.node node).op = o)
    (hr : copyOperatorOfNode copies o node s = some (x, t)) : MakesCopy h₀ o s x t := by
  unfold copyOperatorOfNode at hr
  cases hfind : copies.nodeOld2New.find node with
  | some new =>
    obtain ⟨rfl, rfl⟩ : _ = x ∧ s = t := by simpa [hfind] using hr
    obtain ⟨-, hlt, hcopy⟩ := hg.nodes node new hfind
    have hdesc : h₀.desc node = h₀.op o := by rw [Heap.desc, ← hk.node node hn, hop]
    exact ⟨rfl, rfl, OutputsKept.refl _, _, hlt, rfl, hdesc ▸ hcopy⟩
  | none =>
    simp only [hfind] at hr
    obtain ⟨new, u, hu, hr⟩ := bind_eq_some.mp hr
    obtain ⟨n, v, hv, hr⟩ := bind_eq_some.mp hr
    obtain ⟨h, hmake, rfl⟩ := onHeap_eq_some.mp hv
    obtain ⟨rfl, rfl⟩ := of_return hr
    obtain ⟨hcount, himpl, hheap, hlt, hcopy⟩ := copyOp_spec hk ho hu
    have hkept := kept_of_keeps (fun h₁ => keeps_make h₁ new none) hmake
    exact ⟨hcount, himpl, OutputsKept.trans hheap hkept, new, Nat.lt_of_lt_of_le hlt hkept.opCount, rfl,
      IsCopy.congr hcopy (SameOutputs.refl _) (hkept.op new hlt)⟩

/-- The operators of a list are copied: each name leads to a new operator of its own, over a copy of the descriptor. -/
structure OperatorsCopied (h₀ : Heap) (s t : FrontEnd) (done : List (String × ImplId)) (dst : OrderedMap String ImplId) : Prop where
  heap : h₀.OutputsKept t.heap
  implCount : s.implCount ≤ t.implCount
  impl : ∀ i < s.implCount, t.impl i = s.impl i
  copy : ∀ name new, dst.find name = some new → s.implCount ≤ new ∧ new < t.implCount ∧
    ∃ i o o', (name, i) ∈ done ∧ (s.impl i).opDesc = some o ∧ (t.impl new).toOperatorImpl = { opDesc := some o' } ∧
      o' < t.heap.opCount ∧ (h₀.op o).IsCopy (t.heap.op o')
  all : ∀ e ∈ done, ∃ new, dst.find e.1 = some new
  once : ∀ n m new, dst.find n = some new → dst.find m = some new → n = m

/-- One more operator copied. -/
theorem OperatorsCopied.add {done : List (String × ImplId)} {dst : OrderedMap String ImplId} {name : String} {i : ImplId}
    {o : OpId} {x : OperatorMembers} {y : OrderedMap String (Option BuilderId)} (hc : OperatorsCopied h₀ s t done dst)
    (hnew : name ∉ done.map Prod.fst) (hdesc : (s.impl i).opDesc = some o) (hx : MakesCopy h₀ o t x u) :
    OperatorsCopied h₀ s
      (u.addImpl { x with subgraphNamesToBuilders := y }) (done ++ [(name, i)]) (dst.insert name u.implCount) := by
  have hold : ∀ m new, dst.find m = some new → m ≠ name ∧ new < t.implCount := by
    intro m new hm
    obtain ⟨-, hlt, i', o, o', hmem, -⟩ := hc.copy m new hm
    refine ⟨fun h => hnew (List.mem_map.mpr ⟨(m, i'), hmem, h⟩), hlt⟩
  have hnone : dst.contains name = false := by
    rw [← find_eq_none, Option.eq_none_iff_forall_ne_some]
    exact fun new hm => (hold name new hm).1 rfl
  have hfind : ∀ m, (dst.insert name u.implCount).find m = if m = name then some u.implCount else dst.find m := by
    intro m
    rw [find_insert]
    simp [hnone]
  have hcount : u.implCount = t.implCount := hx.implCount
  obtain ⟨new, hlt, hmembers, hcopy⟩ := hx.copy
  refine ⟨OutputsKept.trans hc.heap hx.heap, ?_, fun j hj => ?_, fun m new' hm => ?_, fun e he => ?_, fun m m' new' hm hm' => ?_⟩
  · exact Nat.le_succ_of_le (hcount ▸ hc.implCount)
  · have hne : j ≠ u.implCount := Nat.ne_of_lt (hcount ▸ Nat.lt_of_lt_of_le hj hc.implCount)
    rw [addImpl_impl, if_neg hne, hx.impl]
    exact hc.impl j hj
  · rw [hfind] at hm
    split at hm
    · rename_i hmn
      obtain rfl := Option.some.inj hm
      refine ⟨hcount ▸ hc.implCount, Nat.lt_succ_self _, i, o, new, by simp [hmn], hdesc, ?_, hlt, hcopy⟩
      rw [addImpl_impl, if_pos rfl]
      exact hmembers
    · obtain ⟨hle, hlt', i', p, p', hmem, hp, hlinks, hp', hiscopy⟩ := hc.copy m new' hm
      refine ⟨hle, Nat.lt_succ_of_lt (hcount ▸ hlt'), i', p, p', mem_append_left _ hmem, hp, ?_,
        Nat.lt_of_lt_of_le hp' hx.heap.opCount, IsCopy.congr hiscopy (SameOutputs.refl _) (hx.heap.op p' hp')⟩
      rw [addImpl_impl, if_neg (Nat.ne_of_lt (hcount ▸ hlt')), hx.impl]
      exact hlinks
  · rw [hfind]
    split
    · exact ⟨_, rfl⟩
    · rename_i hne
      rcases mem_append.mp he with he | he
      · exact hc.all e he
      · rw [mem_singleton.mp he] at hne
        exact absurd rfl hne
  · rw [hfind] at hm hm'
    split at hm <;> split at hm'
    · rename_i hmn hmn'
      exact hmn.trans hmn'.symm
    · obtain rfl := Option.some.inj hm
      exact absurd (hold m' _ hm').2 (hcount ▸ Nat.lt_irrefl _)
    · obtain rfl := Option.some.inj hm'
      exact absurd (hold m _ hm).2 (hcount ▸ Nat.lt_irrefl _)
    · exact hc.once m m' new' hm hm'

/-- The loop over the operators copies them. -/
theorem copyOperators_spec (l : List (String × ImplId)) : ∀ {done : List (String × ImplId)} {dst dst' : OrderedMap String ImplId}
    {t u : FrontEnd}, OperatorsCopied h₀ s t done dst → Good h₀ t.heap copies → ((done ++ l).map Prod.fst).Nodup →
    (∀ e ∈ l, e.2 < s.implCount ∧ (∀ o ∈ (s.impl e.2).opDesc, o < h₀.opCount) ∧ ∀ n ∈ (s.impl e.2).node, n < h₀.nodeCount) →
    copyOperators copies l dst t = some (some dst', u) → OperatorsCopied h₀ s u (done ++ l) dst' := by
  induction l with
  | nil =>
    intro done dst dst' t u hc _ _ _ hr
    obtain ⟨rfl, rfl⟩ : dst = dst' ∧ t = u := by simpa [copyOperators] using hr
    rwa [append_nil]
  | cons e l ih =>
    intro done dst dst' t u hc hg hnd hl hr
    obtain ⟨name, i⟩ := e
    obtain ⟨hi, hdescs, hnodes⟩ := hl (name, i) mem_cons_self
    have hmem : name ∉ done.map Prod.fst := by
      rw [map_append, map_cons] at hnd
      exact fun h => (nodup_append.mp hnd).2.2 _ h _ mem_cons_self rfl
    simp only [copyOperators, get_bind_apply, hc.impl i hi] at hr
    cases hdesc : (s.impl i).opDesc with
    | none => simp [hdesc] at hr
    | some o =>
      simp only [hdesc] at hr
      have ho := hdescs o hdesc
      obtain ⟨x, v, hv, hr⟩ := bind_eq_some.mp hr
      cases x with
      | none => simp at hr
      | some x =>
        have hx : MakesCopy h₀ o t x v := by
          cases hnode : (s.impl i).node with
          | none =>
            simp only [hnode] at hv
            obtain ⟨x', w, hw, hv⟩ := bind_eq_some.mp hv
            obtain ⟨rfl, rfl⟩ : x' = x ∧ w = v := by simpa using hv
            exact copyOperatorOfDesc_spec hc.heap hg ho hw
          | some node =>
            simp only [hnode] at hv
            split at hv
            · simp at hv
            · rename_i hop
              obtain ⟨x', w, hw, hv⟩ := bind_eq_some.mp hv
              obtain ⟨rfl, rfl⟩ : x' = x ∧ w = v := by simpa using hv
              exact copyOperatorOfNode_spec hc.heap hg ho (hnodes node hnode) (not_not.mp hop) hw
        obtain ⟨new, w, hw, hr⟩ := bind_eq_some.mp hr
        obtain ⟨rfl, rfl⟩ := of_return hw
        have hnext := hc.add (y := (s.impl i).subgraphNamesToBuilders) hmem hdesc hx
        have hrest := ih hnext (hg.kept hx.heap) (by simpa using hnd)
          (fun e he => hl e (mem_cons_of_mem _ he)) hr
        rwa [append_assoc] at hrest

/-! ## One link -/

section
variable {s t : Operators} {this src : ImplId} {dst srcDesc : OpId} {n : String} {ok : Bool}

variable {srcName out : String} {e : OpIO} {a : ImplId}

/-- Entering an input at an output adds it to those the output lists. -/
theorem feeds_updateLinkMapImpl {e' : OpIO} :
    (s.updateLinkMapImpl src srcName e').Feeds a out e ↔ s.Feeds a out e ∨ a = src ∧ out = srcName ∧ e = e' := by
  by_cases ha : a = src
  · subst ha
    unfold Operators.Feeds Operators.updateLinkMapImpl
    cases hf : (s.impl a).outputLinks.find srcName with
    | none =>
      rw [setImpl_impl, update_self]
      simp only [find_insert, OrderedMap.find_eq_none.mp hf, and_true, true_and]
      by_cases hout : out = srcName
      · simp [hout, hf]
      · simp [hout]
    | some dsts =>
      rw [setImpl_impl, update_self]
      simp only [find_assign, true_and]
      by_cases hout : out = srcName
      · simp [hout, hf]
      · simp [hout]
  · unfold Operators.Feeds
    rw [updateLinkMapImpl_of_ne ha]
    simp [ha]

theorem feeds_insertInputLink {io : OpIO} : (s.insertInputLink this n io).Feeds a out e ↔ s.Feeds a out e := by
  unfold Operators.Feeds
  rw [(insertInputLink_other s this n io a).1]

theorem DescsKept.refl (s : Operators) : s.DescsKept s := ⟨fun _ => SameOutputs.refl _, fun _ => rfl⟩

theorem DescsKept.trans {u : Operators} (h₁ : s.DescsKept t) (h₂ : t.DescsKept u) : s.DescsKept u :=
  ⟨fun o => SameOutputs.trans (h₁.op o) (h₂.op o), fun i => (h₂.opDesc i).trans (h₁.opDesc i)⟩

theorem DescsKept.setOp {o : OpId} {x : OpDesc} (hx : (s.op o).SameOutputs x) : s.DescsKept (s.setOp o x) := by
  refine ⟨fun p => ?_, fun _ => rfl⟩
  rw [setOp_op, update_apply]
  split
  · rename_i hp
    exact hp ▸ hx
  · exact SameOutputs.refl _

theorem DescsKept.setImpl {i : ImplId} {x : OperatorImpl} (hx : x.opDesc = (s.impl i).opDesc) : s.DescsKept (s.setImpl i x) := by
  refine ⟨fun _ => SameOutputs.refl _, fun j => ?_⟩
  rw [setImpl_impl, update_apply]
  split
  · rename_i hj
    rw [hj, hx]
  · rfl

theorem DescsKept.updateLinkMapImpl (s : Operators) (src : ImplId) (srcName : String) (e : OpIO) :
    s.DescsKept (s.updateLinkMapImpl src srcName e) := by
  unfold Operators.updateLinkMapImpl
  split <;> exact DescsKept.setImpl rfl

/-- Replacing an input descriptor keeps the outputs. -/
theorem sameOutputs_updateInputDesc (op : OpDesc) (name : String) (desc : GeTensorDesc) :
    op.SameOutputs (op.updateInputDesc name desc).2 := by
  unfold OpDesc.updateInputDesc OpDesc.updateInputDescAt
  split
  · exact SameOutputs.refl op
  · split <;> exact ⟨rfl, rfl, rfl, rfl, rfl⟩

theorem linkInput_kept {dstIndex : Int}
    (hr : OperatorImpl.linkInput this dst n dstIndex src srcDesc srcName s = some (ok, t)) : s.DescsKept t := by
  simp only [OperatorImpl.linkInput, modify_bind_apply, get_bind_apply, set_bind_apply, pure_apply, Option.some.injEq,
    Prod.mk.injEq] at hr
  obtain ⟨-, rfl⟩ := hr
  refine DescsKept.trans ?_ (DescsKept.setOp (sameOutputs_updateInputDesc _ _ _))
  refine DescsKept.trans ?_ (DescsKept.updateLinkMapImpl _ _ _ _)
  exact DescsKept.setOp ⟨rfl, rfl, rfl, rfl, rfl⟩

/-- Whether `SetInputImpl` gets past its first checks: the input has a name, and the source one output, which has one. -/
def Accepts (s : Operators) (n : String) (srcDesc : OpId) : Prop :=
  n ≠ "" ∧ (s.op srcDesc).outputsDesc.length = 1 ∧ (s.op srcDesc).getOutputNameByIndex 0 ≠ ""

/-- A link from an output, entered at its input and perhaps at the output; nothing else changed. -/
structure LinkMade (s t : Operators) (this : ImplId) (n : String) (src : ImplId) (srcName : String) : Prop where
  kept : s.DescsKept t
  find : ∀ b name, (t.impl b).inputLink.find name =
    if b = this ∧ name = n ∧ (s.impl this).inputLink.contains n = false then
      some { name := srcName, index := 0, owner := some src }
    else (s.impl b).inputLink.find name
  feeds : ∀ a out e, t.Feeds a out e → s.Feeds a out e ∨ (a = src ∧ out = srcName ∧ e.name = n ∧ e.owner = some this)
  control : ∀ b, (t.impl b).controlInputLink = (s.impl b).controlInputLink ∧
    (t.impl b).controlOutputLink = (s.impl b).controlOutputLink
  other : ∀ b, b ≠ this → b ≠ src → t.impl b = s.impl b

theorem LinkMade.of_entered (hkept : s.DescsKept t)
    (he : Entered s this dst n { name := srcName, index := 0, owner := some src } ok t) : LinkMade s t this n src srcName := by
  have hother : ∀ (io : OpIO) (b : ImplId), b ≠ this → (s.insertInputLink this n io).impl b = s.impl b := fun io b hb =>
    update_of_ne hb _ _
  cases he with
  | refused hno =>
    refine ⟨hkept, fun b name => insertInputLink_find _ _ _ _ _ _, fun a out e h => .inl (feeds_insertInputLink.mp h),
      fun b => (insertInputLink_other _ _ _ _ _).2, fun b hb _ => hother _ b hb⟩
  | linked hi hv howner ht =>
    obtain rfl := Option.some.inj howner
    refine ⟨hkept, fun b name => ?_, fun a out e h => ?_, fun b => ?_, fun b hb hsrc => ?_⟩
    · rw [ht, (updateLinkMapImpl_other _ _ _ _ _).1]
      exact insertInputLink_find _ _ _ _ _ _
    · have hfeeds : ((s.insertInputLink this n { name := srcName, index := 0, owner := some src }).updateLinkMapImpl src srcName
          { name := n, index := (s.op dst).getInputIndexByName n, owner := some this }).Feeds a out e := by
        unfold Operators.Feeds at h ⊢
        rwa [← ht]
      rcases feeds_updateLinkMapImpl.mp hfeeds with h | ⟨ha, hout, rfl⟩
      · exact .inl (feeds_insertInputLink.mp h)
      · exact .inr ⟨ha, hout, rfl, rfl⟩
    · rw [ht, (updateLinkMapImpl_other _ _ _ _ _).2.1, (updateLinkMapImpl_other _ _ _ _ _).2.2]
      exact (insertInputLink_other _ _ _ _ _).2
    · rw [ht, updateLinkMapImpl_of_ne hsrc]
      exact hother _ b hb

/-- `SetInputImpl` does nothing, or makes the link from the only output of the source. -/
theorem setInputImpl_made (hdst : (s.impl this).opDesc = some dst) (hsrc : (s.impl src).opDesc = some srcDesc)
    (hr : OperatorImpl.setInputImpl this n (some src) s = some (ok, t)) :
    (¬ Accepts s n srcDesc ∧ t = s) ∨
      (Accepts s n srcDesc ∧ LinkMade s t this n src ((s.op srcDesc).getOutputNameByIndex 0)) := by
  unfold OperatorImpl.setInputImpl at hr
  by_cases hname : n = ""
  · obtain ⟨-, rfl⟩ : false = ok ∧ s = t := by simpa [hname] using hr
    exact .inl ⟨fun h => h.1 hname, rfl⟩
  rw [if_neg hname, get_bind_apply] at hr
  simp only [hdst, hsrc] at hr
  by_cases hone : (s.op srcDesc).getOutputsSize = 1
  case neg =>
    obtain ⟨-, rfl⟩ : false = ok ∧ s = t := by simpa [hone] using hr
    exact .inl ⟨fun h => hone h.2.1, rfl⟩
  by_cases hnamed : (s.op srcDesc).getOutputNameByIndex 0 = ""
  · obtain ⟨-, rfl⟩ : false = ok ∧ s = t := by simpa [hone, hnamed] using hr
    exact .inl ⟨fun h => h.2.2 hnamed, rfl⟩
  rw [if_neg (not_not.mpr hone), if_neg hnamed, modify_bind_apply] at hr
  refine .inr ⟨⟨hname, hone, hnamed⟩, ?_⟩
  have hinsert : ∀ io, s.DescsKept (s.insertInputLink this n io) := fun io => DescsKept.setImpl rfl
  by_cases hi : (s.op dst).getInputIndexByName n < 0
  · rw [if_pos hi] at hr
    obtain ⟨-, rfl⟩ := of_return hr
    exact .of_entered (hinsert _) (.refused (.inl hi))
  · rw [if_neg hi] at hr
    exact .of_entered (DescsKept.trans (hinsert _) (linkInput_kept hr))
      (entered_of_link rfl hsrc (Int.not_lt.mp hi) hr)

end

/-- A control link between two operators is there afterwards on both sides, if it was on both or on none. -/
structure ControlMade (s t : Operators) (this src : ImplId) : Prop where
  kept : s.DescsKept t
  inputLink : ∀ b, (t.impl b).inputLink = (s.impl b).inputLink
  outputLinks : ∀ b, (t.impl b).outputLinks = (s.impl b).outputLinks
  input : ∀ b x, x ∈ (t.impl b).controlInputLink ↔ x ∈ (s.impl b).controlInputLink ∨ b = this ∧ x = src
  output : ∀ a y, y ∈ (t.impl a).controlOutputLink ↔ y ∈ (s.impl a).controlOutputLink ∨ a = src ∧ y = this
  other : ∀ b, b ≠ this → b ≠ src → t.impl b = s.impl b

variable {s t : Operators} {v : FrontEnd} {l : List (String × ImplId)}
  {dst : OrderedMap String ImplId}

theorem addControlInputImp_made {this src : ImplId} {ok : Bool}
    (hboth : src ∈ (s.impl this).controlInputLink → this ∈ (s.impl src).controlOutputLink)
    (hr : OperatorImpl.addControlInputImp this (some src) s = some (ok, t)) : ControlMade s t this src := by
  simp only [OperatorImpl.addControlInputImp, get_bind_apply] at hr
  by_cases hmem : src ∈ (s.impl this).controlInputLink
  · obtain ⟨-, rfl⟩ : true = ok ∧ s = t := by simpa [hmem] using hr
    refine ⟨DescsKept.refl s, fun _ => rfl, fun _ => rfl, fun b x => ⟨.inl, ?_⟩, fun a y => ⟨.inl, ?_⟩, fun _ _ _ => rfl⟩
    · rintro (h | ⟨rfl, rfl⟩)
      · exact h
      · exact hmem
    · rintro (h | ⟨rfl, rfl⟩)
      · exact h
      · exact hboth hmem
  · rw [if_neg (by simpa using hmem)] at hr
    simp only [modify_bind_apply, pure_apply, Option.some.injEq, Prod.mk.injEq] at hr
    obtain ⟨-, rfl⟩ := hr
    refine ⟨?_, fun b => ?_, fun b => ?_, fun b x => ?_, fun a y => ?_, fun b hb hs => ?_⟩
    -- the source may be the operator itself, which then has both entries
    · refine DescsKept.trans ?_ (DescsKept.setImpl rfl)
      exact DescsKept.setImpl rfl
    · simp only [setImpl_impl, update_apply]
      split_ifs <;> simp_all
    · simp only [setImpl_impl, update_apply]
      split_ifs <;> simp_all
    · simp only [setImpl_impl, update_apply]
      split_ifs <;> simp_all
    · simp only [setImpl_impl, update_apply]
      split_ifs <;> simp_all
    · simp only [setImpl_impl, update_apply, if_neg hb, if_neg hs]

/-! ## All links -/

theorem accepts_congr {n : String} {o : OpId} (h : s.DescsKept t) : Accepts t n o ↔ Accepts s n o := by
  obtain ⟨-, hdescs, hnames, -, -⟩ := h.op o
  simp only [Accepts, OpDesc.getOutputNameByIndex, hdescs, hnames]

/-- The link that is made for a link of the source: from the copy of the name of its owner, where that is accepted. -/
def Makes (s v : FrontEnd) (dst : OrderedMap String ImplId) (n : String) (io new : OpIO) : Prop :=
  ∃ a a' o, io.owner = some a ∧ dst.find (implName s a) = some a' ∧ (v.impl a').opDesc = some o ∧
    Accepts v.operators n o ∧ new = { name := (v.heap.op o).getOutputNameByIndex 0, index := 0, owner := some a' }

/-- The links made for some of the links of a list of operators: those that are accepted, each mirrored at its source. -/
structure Relinked (s v t : FrontEnd) (dst : OrderedMap String ImplId) (done : List (String × String × OpIO))
    (controlDone : List (String × ImplId)) : Prop where
  kept : v.operators.DescsKept t.operators
  impl : ∀ i < s.implCount, t.impl i = s.impl i
  sound : ∀ b i n new, dst.find b = some i → (t.impl i).inputLink.find n = some new →
    ∃ io, (b, n, io) ∈ done ∧ Makes s v dst n io new
  complete : ∀ b i n io new, (b, n, io) ∈ done → dst.find b = some i → Makes s v dst n io new →
    (t.impl i).inputLink.find n = some new
  mirrored : ∀ a j out e, dst.find a = some j → t.operators.Feeds j out e →
    ∃ b i new, dst.find b = some i ∧ e.owner = some i ∧ (t.impl i).inputLink.find e.name = some new ∧ new.owner = some j ∧
      new.name = out
  control : ∀ b i j, dst.find b = some i →
    (j ∈ (t.impl i).controlInputLink ↔ ∃ a, (b, a) ∈ controlDone ∧ dst.find (implName s a) = some j)
  controlOut : ∀ a j i, dst.find a = some j →
    (i ∈ (t.impl j).controlOutputLink ↔ ∃ b, dst.find b = some i ∧ j ∈ (t.impl i).controlInputLink)

/-- Without links nothing is made. -/
theorem Relinked.start {s : FrontEnd} (hc : OperatorsCopied h₀ s v l dst) : Relinked s v v dst [] [] := by
  have hnone : ∀ a j, dst.find a = some j → ∃ o, (v.impl j).toOperatorImpl = { opDesc := some o } := by
    intro a j ha
    obtain ⟨-, -, -, -, o, -, -, hj, -⟩ := hc.copy a j ha
    exact ⟨o, hj⟩
  refine ⟨DescsKept.refl _, hc.impl, fun b i n new hb hn => ?_, fun _ _ _ _ _ h => (nomatch h), fun a j out e ha hf => ?_,
    fun b i j hb => ?_, fun a j i ha => ?_⟩
  · obtain ⟨o, ho⟩ := hnone b i hb
    simp [ho, OrderedMap.find] at hn
  · obtain ⟨o, ho⟩ := hnone a j ha
    obtain ⟨dsts, hfind, -⟩ := hf
    simp [FrontEnd.operators, ho, OrderedMap.find] at hfind
  · obtain ⟨o, ho⟩ := hnone b i hb
    simp [ho]
  · obtain ⟨o, ho⟩ := hnone a j ha
    simp only [ho, not_mem_nil, false_iff, not_exists, not_and]
    intro b hb
    obtain ⟨p, hp⟩ := hnone b i hb
    simp [hp]

section
variable {s v t u : FrontEnd} {l : List (String × ImplId)} {dst : OrderedMap String ImplId} {b n : String} {i a : ImplId}
variable {io : OpIO} {done : List (String × String × OpIO)} {controlDone : List (String × ImplId)}

/-- The name of an operator made before does not change. -/
theorem implName_kept (hc : OperatorsCopied s.heap s v l dst) (hr : Relinked s v t dst done controlDone)
    (ha : a < s.implCount) (hdesc : ∀ o ∈ (s.impl a).opDesc, o < s.heap.opCount) : implName t a = implName s a := by
  unfold implName
  rw [hr.impl a ha]
  cases ho : (s.impl a).opDesc with
  | none => rfl
  | some o =>
    have hname := (hc.heap.op o (hdesc o ho)).name
    have hlater := (hr.kept.op o).name
    simp only [Option.map_some, Option.getD_some]
    exact hlater.trans hname

/-- A command on the operators seen on the front end. -/
theorem impl_withOperators (t : FrontEnd) (o : Operators) (j : ImplId) : (t.withOperators o).impl j =
    { t.impl j with toOperatorImpl := o.impl j } := rfl

/-- A link that is not accepted is not made. -/
theorem Relinked.refused (hr : Relinked s v t dst done controlDone) (hno : ∀ new, ¬ Makes s v dst n io new) :
    Relinked s v t dst (done ++ [(b, n, io)]) controlDone where
  kept := hr.kept
  impl := hr.impl
  sound b i n new hb hn :=
    let ⟨io, hio, hm⟩ := hr.sound b i n new hb hn
    ⟨io, mem_append_left _ hio, hm⟩
  complete b' i' n' io' new hmem hb hm := by
    rcases mem_append.mp hmem with hmem | hmem
    · exact hr.complete b' i' n' io' new hmem hb hm
    · obtain ⟨rfl, rfl, rfl⟩ : b' = b ∧ n' = n ∧ io' = io := by simpa using hmem
      exact absurd hm (hno new)
  mirrored := hr.mirrored
  control := hr.control
  controlOut := hr.controlOut

/-- A link that is made is found at its input, and mirrored. -/
theorem Relinked.made {j : ImplId} {name first : String} {o : Operators} (hc : OperatorsCopied s.heap s v l dst)
    (hr : Relinked s v t dst done controlDone) (hb : dst.find b = some i) (hnew : ∀ io', (b, n, io') ∉ done)
    (hj : dst.find name = some j) (hm : Makes s v dst n io { name := first, index := 0, owner := some j })
    (honly : ∀ new, Makes s v dst n io new → new = { name := first, index := 0, owner := some j })
    (hlink : LinkMade t.operators o i n j first) :
    Relinked s v (t.withOperators o) dst (done ++ [(b, n, io)]) controlDone := by
  have hcontains : (t.impl i).inputLink.contains n = false := by
    rw [← find_eq_none, Option.eq_none_iff_forall_ne_some]
    intro new hn
    obtain ⟨io', hio', -⟩ := hr.sound b i n new hb hn
    exact hnew io' hio'
  have hfind : ∀ i' n', (((t.withOperators o).impl i').inputLink).find n' =
      if i' = i ∧ n' = n then some { name := first, index := 0, owner := some j } else (t.impl i').inputLink.find n' := by
    intro i' n'
    have h := hlink.find i' n'
    have hc' : (t.operators.impl i).inputLink.contains n = false := hcontains
    simp only [hc', and_true] at h
    exact h
  refine ⟨DescsKept.trans hr.kept hlink.kept, fun x hx => ?_, fun b' i' n' new hb' hn' => ?_,
    fun b' i' n' io' new hmem hb' hm' => ?_,
    fun a j' out e ha hf => ?_, fun b' i' j' hb' => ?_, fun a j' i' ha => ?_⟩
  · have hi := (hc.copy b i hb).1
    have hji := (hc.copy name j hj).1
    have hsame := hlink.other x (Nat.ne_of_lt (Nat.lt_of_lt_of_le hx hi)) (Nat.ne_of_lt (Nat.lt_of_lt_of_le hx hji))
    rw [impl_withOperators, hsame, ← hr.impl x hx]
    rfl
  · rw [hfind] at hn'
    split at hn'
    · rename_i hin
      obtain rfl := hc.once b' b i (hin.1 ▸ hb') hb
      refine ⟨io, by simp [hin.2], ?_⟩
      rw [hin.2, ← Option.some.inj hn']
      exact hm
    · obtain ⟨io', hio', hm'⟩ := hr.sound b' i' n' new hb' hn'
      exact ⟨io', mem_append_left _ hio', hm'⟩
  · rw [hfind]
    rcases mem_append.mp hmem with hold | hlast
    · rw [if_neg]
      · exact hr.complete b' i' n' io' new hold hb' hm'
      · rintro ⟨rfl, rfl⟩
        obtain rfl := hc.once b' b i' hb' hb
        exact hnew io' hold
    · obtain ⟨rfl, rfl, rfl⟩ : b' = b ∧ n' = n ∧ io' = io := by simpa using hlast
      rw [if_pos ⟨Option.some.inj (hb'.symm.trans hb), rfl⟩, honly new hm']
  · rcases hlink.feeds j' out e hf with hf | ⟨rfl, rfl, hen, heo⟩
    · obtain ⟨b', i', new, hb', heo, hn, hno, hnn⟩ := hr.mirrored a j' out e ha hf
      refine ⟨b', i', new, hb', heo, ?_, hno, hnn⟩
      rw [hfind, if_neg]
      · exact hn
      · rintro ⟨rfl, hen⟩
        rw [hen, OrderedMap.find_eq_none.mpr hcontains] at hn
        cases hn
    · refine ⟨b, i, { name := out, index := 0, owner := some j' }, hb, heo, ?_, rfl, rfl⟩
      rw [hfind, if_pos ⟨rfl, hen⟩]
  · rw [impl_withOperators, (hlink.control i').1]
    exact hr.control b' i' j' hb'
  · rw [impl_withOperators, (hlink.control j').2]
    simp only [impl_withOperators, hlink.control]
    exact hr.controlOut a j' i' ha

/-- Making one more link. -/
theorem Relinked.link (hc : OperatorsCopied s.heap s v l dst) (hr : Relinked s v t dst done controlDone)
    (hb : dst.find b = some i) (hnew : ∀ io', (b, n, io') ∉ done)
    (ha : ∀ a ∈ io.owner, a < s.implCount ∧ ∀ o ∈ (s.impl a).opDesc, o < s.heap.opCount)
    (hcall : copyInputLink dst i (n, io) t = some (true, u)) :
    Relinked s v u dst (done ++ [(b, n, io)]) controlDone := by
  unfold copyInputLink at hcall
  cases howner : io.owner with
  | none => simp [howner] at hcall
  | some a =>
    obtain ⟨halt, hadesc⟩ := ha a howner
    simp only [howner, get_bind_apply, implName_kept hc hr halt hadesc] at hcall
    cases hfind : dst.find (implName s a) with
    | none => simp [hfind] at hcall
    | some j =>
      simp only [hfind] at hcall
      obtain ⟨ok, w, hw, hcall⟩ := bind_eq_some.mp hcall
      obtain rfl : w = u := by simpa using hcall
      obtain ⟨o, ho, rfl⟩ := onOperators_eq_some.mp hw
      obtain ⟨-, -, -, -, p, -, -, hp, -⟩ := hc.copy b i hb
      obtain ⟨-, -, -, -, q, -, -, hq, -⟩ := hc.copy _ j hfind
      have hpt : (t.operators.impl i).opDesc = some p := (hr.kept.opDesc i).trans (congrArg OperatorImpl.opDesc hp)
      have hqv : (v.impl j).opDesc = some q := congrArg OperatorImpl.opDesc hq
      have hqt : (t.operators.impl j).opDesc = some q := (hr.kept.opDesc j).trans hqv
      have haccepts : Accepts t.operators n q ↔ Accepts v.operators n q := accepts_congr hr.kept
      have hmakes : ∀ new, Makes s v dst n io new ↔ Accepts v.operators n q ∧
          new = { name := (v.heap.op q).getOutputNameByIndex 0, index := 0, owner := some j } := by
        intro new
        constructor
        · rintro ⟨a', j', q', ha', hj', hq', hacc, rfl⟩
          obtain rfl := Option.some.inj (howner.symm.trans ha')
          obtain rfl := Option.some.inj (hfind.symm.trans hj')
          obtain rfl := Option.some.inj (hqv.symm.trans hq')
          exact ⟨hacc, rfl⟩
        · rintro ⟨hacc, rfl⟩
          exact ⟨a, j, q, howner, hfind, hqv, hacc, rfl⟩
      rcases setInputImpl_made hpt hqt ho with ⟨hno, rfl⟩ | ⟨hacc, hlink⟩
      · exact hr.refused fun new hm => hno (haccepts.mpr ((hmakes new).mp hm).1)
      · have hname : (t.operators.op q).getOutputNameByIndex 0 = (v.heap.op q).getOutputNameByIndex 0 := by
          simp only [OpDesc.getOutputNameByIndex, (hr.kept.op q).outputNameIdx]
          rfl
        rw [hname] at hlink
        exact hr.made hc hb hnew hfind ((hmakes _).mpr ⟨haccepts.mp hacc, rfl⟩) (fun new hm => ((hmakes new).mp hm).2) hlink

/-- Making one more control link. -/
theorem Relinked.controlLink (hc : OperatorsCopied s.heap s v l dst) (hr : Relinked s v t dst done controlDone)
    (hb : dst.find b = some i) (ha : a < s.implCount ∧ ∀ o ∈ (s.impl a).opDesc, o < s.heap.opCount)
    (hcall : copyControlLink dst i a t = some (true, u)) : Relinked s v u dst done (controlDone ++ [(b, a)]) := by
  simp only [copyControlLink, get_bind_apply, implName_kept hc hr ha.1 ha.2] at hcall
  cases hfind : dst.find (implName s a) with
  | none => simp [hfind] at hcall
  | some j =>
    simp only [hfind] at hcall
    obtain ⟨ok, w, hw, hcall⟩ := bind_eq_some.mp hcall
    obtain rfl : w = u := by simpa using hcall
    obtain ⟨o, ho, rfl⟩ := onOperators_eq_some.mp hw
    have hmade := addControlInputImp_made (fun hmem => (hr.controlOut _ j i hfind).mpr ⟨b, hb, hmem⟩) ho
    refine ⟨DescsKept.trans hr.kept hmade.kept, fun x hx => ?_, fun b' i' n' new hb' hn' => ?_,
      fun b' i' n' io' new hmem hb' hm' => ?_, fun a' j' out e ha' hf => ?_, fun b' i' j' hb' => ?_, fun a' j' i' ha' => ?_⟩
    · have hi := (hc.copy b i hb).1
      have hji := (hc.copy _ j hfind).1
      have hsame := hmade.other x (Nat.ne_of_lt (Nat.lt_of_lt_of_le hx hi)) (Nat.ne_of_lt (Nat.lt_of_lt_of_le hx hji))
      rw [impl_withOperators, hsame, ← hr.impl x hx]
      rfl
    · rw [impl_withOperators, hmade.inputLink] at hn'
      exact hr.sound b' i' n' new hb' hn'
    · rw [impl_withOperators, hmade.inputLink]
      exact hr.complete b' i' n' io' new hmem hb' hm'
    · have hold : t.operators.Feeds j' out e := by
        obtain ⟨dsts, hdsts, he⟩ := hf
        exact ⟨dsts, (congrArg (OrderedMap.find · out) (hmade.outputLinks j')).symm.trans hdsts, he⟩
      obtain ⟨b', i', new, hb', heo, hn, hrest⟩ := hr.mirrored a' j' out e ha' hold
      refine ⟨b', i', new, hb', heo, ?_, hrest⟩
      rw [impl_withOperators, hmade.inputLink]
      exact hn
    · rw [impl_withOperators, hmade.input]
      refine (or_congr (hr.control b' i' j' hb') Iff.rfl).trans ?_
      constructor
      · rintro (⟨a', hmem, ha'⟩ | ⟨rfl, rfl⟩)
        · exact ⟨a', mem_append_left _ hmem, ha'⟩
        · obtain rfl := hc.once b' b i' hb' hb
          exact ⟨a, by simp, hfind⟩
      · rintro ⟨a', hmem, ha'⟩
        rcases mem_append.mp hmem with hold | hlast
        · exact .inl ⟨a', hold, ha'⟩
        · obtain ⟨rfl, rfl⟩ : b' = b ∧ a' = a := by simpa using hlast
          exact .inr ⟨Option.some.inj (hb'.symm.trans hb), Option.some.inj (ha'.symm.trans hfind)⟩
    · simp only [impl_withOperators, hmade.output, hmade.input]
      refine (or_congr (hr.controlOut a' j' i' ha') Iff.rfl).trans ?_
      constructor
      · rintro (⟨b', hb', hmem⟩ | ⟨rfl, rfl⟩)
        · exact ⟨b', hb', .inl hmem⟩
        · exact ⟨b, hb, .inr ⟨rfl, rfl⟩⟩
      · rintro ⟨b', hb', hmem | ⟨rfl, rfl⟩⟩
        · exact .inl ⟨b', hb', hmem⟩
        · exact .inr ⟨rfl, rfl⟩

end

/-- The links of the inputs of some operators, each under the name of its operator. -/
def inputLinks (s : FrontEnd) (l : List (String × ImplId)) : List (String × String × OpIO) :=
  l.flatMap fun e => (s.impl e.2).inputLink.map fun link => (e.1, link)

/-- The control links of some operators. -/
def controlInputLinks (s : FrontEnd) (l : List (String × ImplId)) : List (String × ImplId) :=
  l.flatMap fun e => (s.impl e.2).controlInputLink.map fun a => (e.1, a)

/-- What is needed of the operators of a list: they were made with their descriptors, an input has one link, and the sources of
links are operators of the list. -/
structure Closed (s : FrontEnd) (l : List (String × ImplId)) : Prop where
  once : (l.map Prod.fst).Nodup
  made : ∀ e ∈ l, e.2 < s.implCount ∧ ∀ o ∈ (s.impl e.2).opDesc, o < s.heap.opCount
  inputOnce : ∀ e ∈ l, ((s.impl e.2).inputLink.map Prod.fst).Nodup
  inside : ∀ e ∈ l, ∀ link ∈ (s.impl e.2).inputLink, ∀ a ∈ link.2.owner, ∃ name, (name, a) ∈ l
  controlInside : ∀ e ∈ l, ∀ a ∈ (s.impl e.2).controlInputLink, ∃ name, (name, a) ∈ l

/-- The loop over the operators makes their links. -/
theorem copyOperatorLinks_relinked {s t : FrontEnd}
    (hcl : Closed s l) (hc : OperatorsCopied s.heap s v l dst) (hr : copyOperatorLinks l dst v = some (true, t)) :
    Relinked s v t dst (inputLinks s l) (controlInputLinks s l) := by
  refine eachOk_of_split (I := fun before t => Relinked s v t dst (inputLinks s before) (controlInputLinks s before))
    (fun before e after t u hl hI hf => ?_) (Relinked.start hc) hr
  have he : e ∈ l := hl ▸ mem_append_right _ mem_cons_self
  obtain ⟨hlt, hdesc⟩ := hcl.made e he
  have hbefore : e.1 ∉ before.map Prod.fst := by
    have hnd := hcl.once
    rw [hl, map_append, map_cons] at hnd
    exact fun h => (nodup_append.mp hnd).2.2 _ h _ mem_cons_self rfl
  have hsource : ∀ a, (∃ name, (name, a) ∈ l) → a < s.implCount ∧ ∀ o ∈ (s.impl a).opDesc, o < s.heap.opCount :=
    fun a ⟨name, ha⟩ => hcl.made (name, a) ha
  obtain ⟨i, hi⟩ := hc.all e he
  simp only [get_bind_apply, hi, hI.impl e.2 hlt] at hf
  obtain ⟨ok, w, hw, hf⟩ := bind_eq_some.mp hf
  cases ok with
  | false => simp at hf
  | true =>
    have hlinks : Relinked s v w dst (inputLinks s before ++ (s.impl e.2).inputLink.map fun link => (e.1, link))
        (controlInputLinks s before) := by
      refine eachOk_of_split (I := fun links t => Relinked s v t dst
        (inputLinks s before ++ links.map fun link => (e.1, link)) (controlInputLinks s before))
        (fun links link rest x y hlinks hx hlink => ?_) (by simpa using hI) hw
      rw [map_append, ← append_assoc]
      refine hx.link hc hi (fun io hio => ?_) (fun a ha => ?_) hlink
      · -- neither another operator before nor another link of this one has the input
        rcases mem_append.mp hio with hio | hio
        · obtain ⟨e', he', hmem⟩ := mem_flatMap.mp hio
          obtain ⟨_, _, hsame⟩ := List.mem_map.mp hmem
          exact hbefore (List.mem_map.mpr ⟨e', he', (Prod.mk.inj hsame).1⟩)
        · obtain ⟨link', hlink', hsame⟩ := List.mem_map.mp hio
          have hnd := hcl.inputOnce e he
          rw [hlinks, map_append, map_cons] at hnd
          obtain rfl : link' = (link.1, io) := congrArg Prod.snd hsame
          exact (nodup_append.mp hnd).2.2 _ (mem_map_of_mem hlink') _ mem_cons_self rfl
      · exact hsource a (hcl.inside e he link (hlinks ▸ mem_append_right _ mem_cons_self) a ha)
    have hcontrol := eachOk_of_split (I := fun sources t => Relinked s v t dst
      (inputLinks s before ++ (s.impl e.2).inputLink.map fun link => (e.1, link))
      (controlInputLinks s before ++ sources.map fun a => (e.1, a)))
      (fun sources a rest x y hsources hx ha => ?_) (by simpa using hlinks) (show _ = _ from hf)
    · simpa only [inputLinks, controlInputLinks, flatMap_append, flatMap_singleton] using hcontrol
    · rw [map_append, ← append_assoc]
      exact hx.controlLink hc hi (hsource a (hcl.controlInside e he a (hsources ▸ mem_append_right _ mem_cons_self))) ha

end CopiesAux

end Metadef
