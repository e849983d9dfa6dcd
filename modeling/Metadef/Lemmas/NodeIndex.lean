import Metadef.Edges
import Metadef.Lemmas.LinkLists
import Metadef.OnnxUtils

/-!
# Names with an index, written and parsed

A name and an index written with a colon between them are parsed to the same name and index, whatever colons the name has. The empty
text that stands for an input without a link is not parsed.
-/

namespace Metadef

open List Nat

namespace NodeIndexAux

open ModelSerializeImp

variable {n : Nat} {i : Int}

theorem splitLast_none {α : Type} [DecidableEq α] {sep : α} {l : List α} (h : sep ∉ l) : splitLast sep l = none := by
  induction l with
  | nil => rfl
  | cons c l ih =>
    obtain ⟨hc, hl⟩ := not_or.mp fun hm => h (mem_cons.mpr hm)
    unfold splitLast
    rw [ih hl]
    exact if_neg fun e => hc e.symm

/-- A list is split at its last separator. -/
theorem splitLast_append {α : Type} [DecidableEq α] {sep : α} {back : List α} (h : sep ∉ back) (front : List α) :
    splitLast sep (front ++ sep :: back) = some (front, back) := by
  induction front with
  | nil =>
    rw [nil_append, splitLast, splitLast_none h]
    exact if_pos rfl
  | cons c front ih => rw [cons_append, splitLast, ih]

/-- Digits are read as the number they write. -/
theorem digitsValue_eq {l : List Char} (h : ∀ c ∈ l, c.isDigit = true) : ∀ n, digitsValue n l = Nat.ofDigitChars 10 l n := by
  induction l with
  | nil => exact fun n => Nat.ofDigitChars_nil.symm
  | cons c l ih =>
    intro n
    rw [digitsValue, if_pos (h c mem_cons_self), ofDigitChars_cons]
    exact ih (fun d hd => h d (mem_cons_of_mem c hd)) _

theorem isDigit_of_mem_repr {c : Char} (hc : c ∈ n.repr.toList) : c.isDigit = true := by
  rw [toList_repr] at hc
  exact isDigit_of_mem_toDigits (by decide) (by decide) hc

theorem digitsValue_repr (n : Nat) : digitsValue 0 n.repr.toList = n := by
  rw [digitsValue_eq fun c hc => isDigit_of_mem_repr hc, toList_repr, ofDigitChars_ten_toDigits]

/-- A text that starts with a digit is read from its start, without a sign. -/
theorem strtol_repr (n : Nat) : strtol n.repr.toList = min (2 ^ 63 - 1) (n : Int) := by
  obtain ⟨c, l, hl⟩ : ∃ c l, n.repr.toList = c :: l := by
    refine exists_cons_of_ne_nil ?_
    rw [toList_repr]
    exact toDigits_ne_nil
  have hdigit : c.isDigit = true := isDigit_of_mem_repr (n := n) (by rw [hl]; exact mem_cons_self)
  have hrange : 48 ≤ c.toNat ∧ c.toNat ≤ 57 := by simpa using Char.isDigit_iff_toNat.mp hdigit
  have hblank : (c = ' ' || (9 ≤ c.toNat && c.toNat ≤ 13)) = false := by
    have hne : c ≠ ' ' := fun e => by simp [e] at hrange
    simp [hne]
    omega
  have hminus : c ≠ '-' := fun e => by simp [e] at hrange
  have hplus : c ≠ '+' := fun e => by simp [e] at hrange
  have hvalue := digitsValue_repr n
  unfold strtol
  rw [hl] at hvalue ⊢
  rw [dropWhile_cons_of_neg (by simpa using hblank)]
  split
  · rename_i hc
    exact absurd (List.cons.inj hc).1 hminus
  · rename_i hc
    exact absurd (List.cons.inj hc).1 hplus
  · rw [hvalue]

/-- An index of 32 bits is read back. -/
theorem strtol_toString (hlo : -(2 ^ 31) ≤ i) (hhi : i < 2 ^ 31) : strtol (toString i).toList = i := by
  cases i with
  | ofNat n =>
    rw [show toString (Int.ofNat n) = n.repr from rfl, strtol_repr]
    simp only [Int.ofNat_eq_natCast] at hhi ⊢
    omega
  | negSucc n =>
    have hchars : (toString (Int.negSucc n)).toList = '-' :: (n + 1).repr.toList := by
      rw [show toString (Int.negSucc n) = "-" ++ (n + 1).repr from rfl, String.toList_append]
      rfl
    rw [hchars]
    show max (-(2 ^ 63)) (-((digitsValue 0 (n + 1).repr.toList : Nat) : Int)) = _
    rw [digitsValue_repr]
    omega

theorem not_mem_toString (i : Int) : ':' ∉ (toString i).toList := by
  have hnat : ∀ n : Nat, ':' ∉ n.repr.toList := fun n hm => by
    have := isDigit_of_mem_repr hm
    revert this
    decide
  cases i with
  | ofNat n => exact hnat n
  | negSucc n =>
    have hchars : (toString (Int.negSucc n)).toList = '-' :: (n + 1).repr.toList := by
      rw [show toString (Int.negSucc n) = "-" ++ (n + 1).repr from rfl, String.toList_append]
      rfl
    rw [hchars]
    intro hm
    rcases mem_cons.mp hm with h | h
    · revert h
      decide
    · exact hnat (n + 1) h

/-- A name and an index written are parsed back. -/
theorem parseNodeIndex_write (name : String) (hlo : -(2 ^ 31) ≤ i) (hhi : i < 2 ^ 31) :
    parseNodeIndex (name ++ ":" ++ toString i) = some (name, i) := by
  have hchars : (name ++ ":" ++ toString i).toList = name.toList ++ ':' :: (toString i).toList := by
    rw [String.toList_append, String.toList_append, append_assoc]
    rfl
  unfold parseNodeIndex
  rw [hchars, splitLast_append (not_mem_toString i)]
  dsimp only
  rw [strtol_toString hlo hhi, String.ofList_toList, Int.bmod_eq_of_le (by omega) (by omega)]

theorem parseNodeIndex_empty : parseNodeIndex "" = none := by decide

end NodeIndexAux

/-!
## The links a node is written with

The texts of the inputs of a node are those of the sources of its data inputs, as far as the first peer of each goes, and of its
control sources. Read again they ask for these links and no others.
-/

namespace Heap

variable (h : Heap)

/-- The links into a node that it is written with. -/
def writtenLinks (n : NodeId) : List (AnchorId × AnchorId) :=
  ((h.node n).inDataAnchors.filterMap fun a => (InDataAnchor.getPeerOutAnchor h a).map fun p => (p, a)) ++
    (InControlAnchor.getPeerOutControlAnchors h (h.node n).inControlAnchor).map fun p => (p, (h.node n).inControlAnchor)

/-- A request that asks a node for a link another is written with. -/
structure Asks (n n' : NodeId) (item : NodeNameNodeReq) (e : AnchorId × AnchorId) : Prop where
  source : item.srcNodeName = Node.getName h (h.owner e.1)
  dest : item.dstNode = n'
  link : (item.srcOutIndex = (h.anchor e.1).idx ∧ 0 ≤ (h.anchor e.1).idx ∧ h.kind e.1 = .outData ∧
      (h.node n).inDataAnchors[item.dstInIndex]? = some e.2) ∨
    (item.srcOutIndex = -1 ∧ h.kind e.1 = .outControl ∧ e.2 = (h.node n).inControlAnchor)

end Heap

namespace WrittenLinksAux

open ModelSerializeImp NodeIndexAux OnnxUtils LinkListsAux

variable {h : Heap} {n n' : NodeId} {name : String} {a p : AnchorId}

/-! ## Reading texts -/

/-- The text of an input that has a source, or has none. -/
def inputText (h : Heap) (a : AnchorId) : String :=
  match InDataAnchor.getPeerOutAnchor h a with
  | some peer => Node.getName h (h.owner peer) ++ ":" ++ toString (h.anchor peer).idx
  | none => ""

/-- Data links are asked for with growing positions. -/
theorem readInputs_pairwise (l : List String) : ∀ i, (∀ item ∈ readInputs n name l i, i ≤ item.dstInIndex) ∧
    (readInputs n name l i).Pairwise fun item item' => 0 ≤ item.srcOutIndex → item.dstInIndex < item'.dstInIndex := by
  induction l with
  | nil => simp [readInputs]
  | cons input l ih =>
    intro i
    unfold readInputs
    split
    · obtain ⟨hle, hpair⟩ := ih (i + 1)
      exact ⟨fun item hi => le_of_succ_le (hle item hi), hpair⟩
    · rename_i s index _
      obtain ⟨hle, hpair⟩ := ih (if 0 ≤ index then i + 1 else i)
      have hge : i ≤ if 0 ≤ index then i + 1 else i := by split <;> omega
      refine ⟨fun item hi => ?_, pairwise_cons.mpr ⟨fun item hi hpos => ?_, hpair⟩⟩
      · rcases mem_cons.mp hi with rfl | hi
        · exact Nat.le_refl i
        · exact hge.trans (hle item hi)
      · have hnext := hle item hi
        rw [if_pos hpos] at hnext
        exact hnext

/-- The peers of data inputs that are written are data outputs, numbered by position. -/
theorem idx_of_getPeerOutAnchor (hs : h.Sound) (hp : InDataAnchor.getPeerOutAnchor h a = some p) :
    p ∈ h.peers a ∧ h.kind p = .outData ∧ 0 ≤ (h.anchor p).idx := by
  unfold InDataAnchor.getPeerOutAnchor at hp
  split at hp
  · cases hp
  · rename_i b l hb
    split at hp
    · rename_i hk
      obtain rfl : b = p := Option.some.inj hp
      have hmem : b ∈ h.peers a := by rw [hb]; exact mem_cons_self
      obtain ⟨hn, hheld⟩ := hs.peersHeld a b hmem
      obtain ⟨i, hi⟩ := getElem?_of_mem hheld
      refine ⟨hmem, hk, ?_⟩
      rw [hs.laid.idx _ hn _ (by rw [hk]; rfl) i b hi]
      exact Int.natCast_nonneg i
    · cases hp

/-- The requests of the data inputs of a node, behind those of inputs before them. -/
theorem readInputs_data (hs : h.Sound) (hidx : ∀ a < h.anchorCount, (h.anchor a).idx < 2 ^ 31) (n n' : NodeId) (name : String)
    {l : List AnchorId} : ∀ done : List AnchorId, (h.node n).inDataAnchors = done ++ l → ∀ rest, ∃ items,
      readInputs n' name (l.map (inputText h) ++ rest) done.length = items ++ readInputs n' name rest (done.length + l.length) ∧
        List.Forall₂ (h.Asks n n') items
          (l.filterMap fun a => (InDataAnchor.getPeerOutAnchor h a).map fun p => (p, a)) := by
  induction l with
  | nil => exact fun _ _ rest => ⟨[], rfl, .nil⟩
  | cons a l ih =>
    intro done hdone rest
    obtain ⟨items, hread, hasks⟩ := ih (done ++ [a]) (by rw [hdone]; simp) rest
    have hlen : (done ++ [a]).length = done.length + 1 := by simp
    rw [hlen, show done.length + 1 + l.length = done.length + (a :: l).length by rw [length_cons]; omega] at hread
    rw [map_cons, cons_append, readInputs]
    cases hp : InDataAnchor.getPeerOutAnchor h a with
    | none =>
      refine ⟨items, ?_, by simpa [hp] using hasks⟩
      have htext : inputText h a = "" := by simp [inputText, hp]
      rw [htext, parseNodeIndex_empty]
      exact hread
    | some p =>
      obtain ⟨hmem, hkind, hpos⟩ := idx_of_getPeerOutAnchor hs hp
      obtain ⟨hn, hheld⟩ := hs.peersHeld a p hmem
      have htext : inputText h a = Node.getName h (h.owner p) ++ ":" ++ toString (h.anchor p).idx := by simp [inputText, hp]
      refine ⟨{ srcNodeName := Node.getName h (h.owner p), srcOutIndex := (h.anchor p).idx, dstNode := n'
                dstInIndex := done.length, dstNodeName := name } :: items, ?_, ?_⟩
      · rw [htext, parseNodeIndex_write _ (by omega) (hidx p (hs.laid.made _ hn _ p hheld))]
        dsimp only
        rw [if_pos hpos, hread]
        rfl
      · have hget : (h.node n).inDataAnchors[done.length]? = some a := by rw [hdone]; simp
        simpa [hp] using List.Forall₂.cons ⟨rfl, rfl, .inl ⟨rfl, hpos, hkind, hget⟩⟩ hasks

/-- The requests of control sources of a node. -/
theorem readInputs_control {l : List AnchorId} (hl : ∀ p ∈ l, h.kind p = .outControl) (k : Nat) :
    List.Forall₂ (h.Asks n n') (readInputs n' name (l.map fun peer => Node.getName h (h.owner peer) ++ ":-1") k)
      (l.map fun p => (p, (h.node n).inControlAnchor)) := by
  induction l with
  | nil => exact .nil
  | cons p l ih =>
    have hparse : parseNodeIndex (Node.getName h (h.owner p) ++ ":-1") = some (Node.getName h (h.owner p), -1) := by
      have hwrite := parseNodeIndex_write (i := -1) (Node.getName h (h.owner p)) (by decide) (by decide)
      rwa [String.append_assoc] at hwrite
    rw [map_cons, readInputs, hparse]
    exact .cons ⟨rfl, rfl, .inr ⟨rfl, hl p mem_cons_self, rfl⟩⟩ (ih fun q hq => hl q (mem_cons_of_mem p hq))

/-- The texts a node is written with ask for the links it is written with. -/
theorem readInputs_written (hs : h.Sound) (hidx : ∀ a < h.anchorCount, (h.anchor a).idx < 2 ^ 31) (n n' : NodeId) (name : String) :
    List.Forall₂ (h.Asks n n') (readInputs n' name (encodeNodeLink h n) 0) (h.writtenLinks n) := by
  obtain ⟨items, hread, hasks⟩ := readInputs_data hs hidx n n' name [] rfl
    ((InControlAnchor.getPeerOutControlAnchors h (h.node n).inControlAnchor).map fun peer =>
      Node.getName h (h.owner peer) ++ ":-1")
  have htexts : encodeNodeLink h n = (h.node n).inDataAnchors.map (inputText h) ++
      (InControlAnchor.getPeerOutControlAnchors h (h.node n).inControlAnchor).map fun peer =>
        Node.getName h (h.owner peer) ++ ":-1" := rfl
  rw [htexts, show (0 : Nat) = ([] : List AnchorId).length from rfl, hread]
  refine rel_append hasks (readInputs_control (fun p hp => ?_) _)
  simpa using (mem_filter.mp hp).2

end WrittenLinksAux

end Metadef
