import Metadef.Lemmas.NodeIndex
import Metadef.Lemmas.ScopePaths
import Metadef.UserOutput
import Mathlib.Data.String.Basic

/-!
# Outputs asked for are read back from their text

`GetOutput` writes a map as names and indices between separators, and `SetUserDefOutput` reads such a text into a map. What a text
gives is always a map that can be written, so writing and reading again gives it once more.
-/

namespace Metadef

open List OrderedMap ScopePathsAux NodeIndexAux

open ComputeGraph StringUtils

/-- A map whose text can be read back: its entries are in the order of their keys, no name has a separator, and each lists indices
of 32 bits, at least one and none twice. -/
structure Printable (m : OutNodesMap) : Prop where
  sorted : m.Pairwise fun d e => d.1 < e.1
  named : ∀ e ∈ m, ';' ∉ e.1.toList ∧ ':' ∉ e.1.toList
  listed : ∀ e ∈ m, e.2 ≠ [] ∧ e.2.Nodup
  bounded : ∀ e ∈ m, ∀ i ∈ e.2, -(2 ^ 31) ≤ i ∧ i < 2 ^ 31

namespace UserOutputAux

variable {m : OutNodesMap} {name : String} {i : Int}

/-! ## Items -/

/-- The text of a name and an index. -/
def itemText (name : String) (i : Int) : String := name ++ ":" ++ toString i

/-- What entering a name and an index does. -/
def enter (m : OutNodesMap) (name : String) (i : Int) : OutNodesMap :=
  match m.find name with
  | none => m.assign name [i]
  | some idxes => if i ∈ idxes then m else m.assign name (idxes ++ [i])

theorem isDigit_or_minus {c : Char} (hc : c ∈ (toString i).toList) : c.isDigit = true ∨ c = '-' := by
  cases i with
  | ofNat n => exact .inl (isDigit_of_mem_repr hc)
  | negSucc n =>
    rw [show toString (Int.negSucc n) = "-" ++ (n + 1).repr from rfl, String.toList_append] at hc
    rcases mem_append.mp hc with hc | hc
    · exact .inr (mem_singleton.mp hc)
    · exact .inl (isDigit_of_mem_repr hc)

/-- No digit and no sign is white space or a separator. -/
theorem not_isSpace {c : Char} (hc : c.isDigit = true ∨ c = '-') : isSpace c = false ∧ c ≠ ';' ∧ c ≠ ':' := by
  rcases hc with hc | rfl
  · have hrange : 48 ≤ c.toNat ∧ c.toNat ≤ 57 := by simpa using Char.isDigit_iff_toNat.mp hc
    refine ⟨?_, ?_, ?_⟩
    · unfold isSpace
      have hblank : c ≠ ' ' := by
        rintro rfl
        exact absurd hrange (by decide)
      simp only [hblank, decide_false, Bool.false_or, Bool.and_eq_false_iff, decide_eq_false_iff_not]
      omega
    · rintro rfl
      exact absurd hrange (by decide)
    · rintro rfl
      exact absurd hrange (by decide)
  · decide

/-- Text without white space is not trimmed. -/
theorem trim_eq {s : String} (hs : ∀ c ∈ s.toList, isSpace c = false) : trim s = s := by
  have hkeep : ∀ l : List Char, (∀ c ∈ l, isSpace c = false) → l.dropWhile isSpace = l := by
    intro l hl
    cases l with
    | nil => rfl
    | cons c l => rw [dropWhile_cons, if_neg (by simp [hl c mem_cons_self])]
  unfold trim ltrim rtrim
  rw [hkeep _ fun c hc => hs c (mem_reverse.mp hc), reverse_reverse, String.ofList_toList, hkeep _ hs,
    String.ofList_toList]

/-- An index of 32 bits is read back. -/
theorem stoi_toString (hlo : -(2 ^ 31) ≤ i) (hhi : i < 2 ^ 31) : stoi (toString i) = .ok i := by
  have hkeep : (toString i).toList.dropWhile isSpace = (toString i).toList := by
    cases hl : (toString i).toList with
    | nil => rfl
    | cons c l =>
      have hc := (not_isSpace (isDigit_or_minus (i := i) (by rw [hl]; exact mem_cons_self))).1
      rw [dropWhile_cons, if_neg (by simp [hc])]
  have hdigits : ∀ n : Nat, ∃ c l, n.repr.toList = c :: l ∧ c.isDigit = true := by
    intro n
    cases hl : n.repr.toList with
    | nil =>
      have hvalue := ne_nil_of_length_pos (l := n.repr.toList) (by rw [Nat.toList_repr]; exact Nat.length_toDigits_pos)
      exact absurd hl hvalue
    | cons c l => exact ⟨c, l, rfl, isDigit_of_mem_repr (by rw [hl]; exact mem_cons_self)⟩
  unfold stoi
  rw [hkeep]
  cases i with
  | ofNat n =>
    obtain ⟨c, l, hl, hc⟩ := hdigits n
    have hvalue := digitsValue_repr n
    have hminus : c ≠ '-' := by
      rintro rfl
      exact absurd hc (by decide)
    have hplus : c ≠ '+' := by
      rintro rfl
      exact absurd hc (by decide)
    rw [show toString (Int.ofNat n) = n.repr from rfl]
    rw [hl] at hvalue ⊢
    simp only [Int.ofNat_eq_natCast] at hlo hhi
    split
    rename_i negative digits hmatch
    split at hmatch
    · rename_i hcons
      exact absurd (List.cons.inj hcons).1 hminus
    · rename_i hcons
      exact absurd (List.cons.inj hcons).1 hplus
    · obtain ⟨rfl, rfl⟩ := Prod.mk.inj hmatch
      simp only [hc, Bool.not_true, Bool.false_eq_true, if_false, hvalue]
      rw [if_pos ⟨hlo, hhi⟩]
      rfl
  | negSucc n =>
    obtain ⟨c, l, hl, hc⟩ := hdigits (n + 1)
    have hvalue := digitsValue_repr (n + 1)
    have hchars : (toString (Int.negSucc n)).toList = '-' :: (n + 1).repr.toList := by
      rw [show toString (Int.negSucc n) = "-" ++ (n + 1).repr from rfl, String.toList_append]
      rfl
    rw [hchars]
    dsimp only
    rw [hl] at hvalue ⊢
    simp only [hc, Bool.not_true, Bool.false_eq_true, if_false, hvalue, if_true]
    have hneg : -((n + 1 : Nat) : Int) = Int.negSucc n := rfl
    rw [hneg, if_pos ⟨hlo, hhi⟩]

/-- The text of a name and an index is entered as such. -/
theorem enterOutput_itemText (hname : ':' ∉ name.toList) (hlo : -(2 ^ 31) ≤ i) (hhi : i < 2 ^ 31) (m : OutNodesMap) :
    enterOutput m (itemText name i) = enter m name i := by
  have hsplit : StringUtils.split (itemText name i) ':' = [name, toString i] := by
    have hchars : (itemText name i).toList = name.toList ++ ':' :: (toString i).toList := by
      rw [itemText, String.toList_append, String.toList_append, append_assoc]
      rfl
    have hindex : ':' ∉ (toString i).toList := fun hc => (not_isSpace (isDigit_or_minus hc)).2.2 rfl
    rw [split_eq, hchars, splitOn_append_cons_self_of_not_mem hname, splitOn_eq_singleton hindex]
    simp
  have htrim : trim (toString i) = toString i := trim_eq fun c hc => (not_isSpace (isDigit_or_minus hc)).1
  rw [enterOutput, hsplit]
  dsimp only
  rw [htrim, stoi_toString hlo hhi]
  rfl

/-! ## Writing -/

/-- The names of a map with each of their indices. -/
def items (m : OutNodesMap) : List (String × Int) := m.flatMap fun e => e.2.map fun i => (e.1, i)

theorem items_cons (e : String × List Int) (m : OutNodesMap) : items (e :: m) = (e.2.map fun i => (e.1, i)) ++ items m :=
  flatMap_cons

/-- The text of a map is that of its items between separators. -/
theorem getOutput_eq (m : OutNodesMap) :
    (getOutput m).toList = [';'].intercalate ((items m).map fun x => (itemText x.1 x.2).toList) := by
  have hinner : ∀ (l : List Int) (k r : String), l.foldl (fun result idx => result ++ k ++ ":" ++ toString idx ++ ";") r =
      String.ofList (r.toList ++ l.flatMap fun i => (itemText k i).toList ++ [';']) := by
    intro l k
    induction l with
    | nil => simp
    | cons i l ih =>
      intro r
      rw [foldl_cons, ih, flatMap_cons]
      refine congrArg String.ofList ?_
      simp [itemText, String.toList_append]
  have houter : ∀ (m : OutNodesMap) (r : String), m.foldl (fun result iter =>
      iter.2.foldl (fun result idx => result ++ iter.1 ++ ":" ++ toString idx ++ ";") result) r =
      String.ofList (r.toList ++ (items m).flatMap fun x => (itemText x.1 x.2).toList ++ [';']) := by
    intro m
    induction m with
    | nil => simp [items]
    | cons e m ih =>
      intro r
      rw [foldl_cons, hinner, ih, String.toList_ofList, items_cons, flatMap_append, append_assoc, flatMap_map]
  have hlast : ∀ l : List (List Char), (l.flatMap fun s => s ++ [';']).dropLast = [';'].intercalate l := by
    intro l
    induction l with
    | nil => rfl
    | cons s l ih =>
      cases l with
      | nil => simp
      | cons t l =>
        rw [flatMap_cons, dropLast_append_of_ne_nil (by simp), ih, intercalate_cons_cons]
  rw [getOutput, houter, String.toList_ofList, String.toList_ofList, ← hlast, flatMap_map]
  simp

/-! ## Reading -/

/-- A map is built again from its items. -/
theorem foldl_enter (hsorted : m.Pairwise fun d e => d.1 < e.1) (hlisted : ∀ e ∈ m, e.2 ≠ [] ∧ e.2.Nodup) :
    (items m).foldl (fun m x => enter m x.1 x.2) [] = m := by
  -- the rest of the indices of a name whose entry is last
  have hrest : ∀ (l acc : List Int) (k : String) (front : OutNodesMap), (∀ e ∈ front, e.1 < k) → (acc ++ l).Nodup →
      (l.map fun i => (k, i)).foldl (fun m x => enter m x.1 x.2) (front ++ [(k, acc)]) = front ++ [(k, acc ++ l)] := by
    intro l
    induction l with
    | nil => simp
    | cons i l ih =>
      intro acc k front hlt hnodup
      have hnew : i ∉ acc := fun hi => (nodup_append.mp hnodup).2.2 i hi i mem_cons_self rfl
      have hstep : enter (front ++ [(k, acc)]) k i = front ++ [(k, acc ++ [i])] := by
        rw [enter, find_last hlt]
        dsimp only
        rw [if_neg hnew, assign_last hlt]
      rw [map_cons, foldl_cons, hstep, ih (acc ++ [i]) k front hlt (by simpa using hnodup)]
      simp
  suffices hbuild : ∀ (rest front : OutNodesMap), (front ++ rest).Pairwise (fun d e => d.1 < e.1) →
      (∀ e ∈ rest, e.2 ≠ [] ∧ e.2.Nodup) → (items rest).foldl (fun m x => enter m x.1 x.2) front = front ++ rest from
    hbuild m [] hsorted hlisted
  intro rest
  induction rest with
  | nil => simp [items]
  | cons e rest ih =>
    intro front hsorted hlisted
    obtain ⟨hne, hnodup⟩ := hlisted e mem_cons_self
    obtain ⟨i, l, hl⟩ := exists_cons_of_ne_nil hne
    have hlt : ∀ d ∈ front, d.1 < e.1 := fun d hd => (pairwise_append.mp hsorted).2.2 d hd e mem_cons_self
    have hfirst : enter front e.1 i = front ++ [(e.1, [i])] := by
      rw [enter, find_behind hlt]
      exact assign_behind hlt [i]
    have hentry : (e.2.map fun i => (e.1, i)).foldl (fun m x => enter m x.1 x.2) front = front ++ [e] := by
      rw [hl, map_cons, foldl_cons, hfirst, hrest l [i] e.1 front hlt (by rwa [hl] at hnodup), singleton_append,
        ← hl]
    rw [items_cons, foldl_append, hentry,
      ih (front ++ [e]) (by simpa using hsorted) fun d hd => hlisted d (mem_cons_of_mem e hd)]
    simp

/-- A map that can be written is read back. -/
theorem setUserDefOutput_getOutput (hm : Printable m) : setUserDefOutput [] (getOutput m) = m := by
  have hitem : ∀ x ∈ items m, ∃ e ∈ m, x.1 = e.1 ∧ x.2 ∈ e.2 := by
    intro x hx
    obtain ⟨e, he, hx⟩ := mem_flatMap.mp hx
    obtain ⟨i, hi, rfl⟩ := List.mem_map.mp hx
    exact ⟨e, he, rfl, hi⟩
  have henter : ∀ (l : List (String × Int)) (acc : OutNodesMap), (∀ x ∈ l, x ∈ items m) →
      (l.map fun x => itemText x.1 x.2).foldl enterOutput acc = l.foldl (fun m x => enter m x.1 x.2) acc := by
    intro l
    induction l with
    | nil => exact fun _ _ => rfl
    | cons x l ih =>
      intro acc hl
      obtain ⟨e, he, hname, hi⟩ := hitem x (hl x mem_cons_self)
      obtain ⟨hlo, hhi⟩ := hm.bounded e he x.2 hi
      rw [map_cons, foldl_cons, foldl_cons, enterOutput_itemText (hname ▸ (hm.named e he).2) hlo hhi]
      exact ih _ fun y hy => hl y (mem_cons_of_mem x hy)
  by_cases hnil : items m = []
  · have hempty : getOutput m = "" := by
      have htext := getOutput_eq m
      rw [hnil] at htext
      exact String.toList_inj.mp htext
    have hbuilt := foldl_enter hm.sorted hm.listed
    rw [hnil] at hbuilt
    rw [setUserDefOutput, if_pos hempty]
    exact hbuilt
  · have hsep : ∀ t ∈ (items m).map (fun x => (itemText x.1 x.2).toList), ';' ∉ t := by
      intro t ht
      obtain ⟨x, hx, rfl⟩ := List.mem_map.mp ht
      obtain ⟨e, he, hname, hi⟩ := hitem x hx
      rw [itemText, String.toList_append, String.toList_append, mem_append, mem_append, hname]
      rintro ((hc | hc) | hc)
      · exact (hm.named e he).1 hc
      · exact absurd hc (by decide)
      · exact (not_isSpace (isDigit_or_minus hc)).2.1 rfl
    have hsplit : StringUtils.split (getOutput m) ';' = (items m).map fun x => itemText x.1 x.2 := by
      rw [split_eq, getOutput_eq, splitOn_intercalate _ hsep (by simpa using hnil), map_map]
      exact map_congr_left fun x _ => String.ofList_toList
    have htext : getOutput m ≠ "" := by
      intro hempty
      have hchars := getOutput_eq m
      obtain ⟨x, l, hl⟩ := exists_cons_of_ne_nil hnil
      rw [hempty, hl, map_cons] at hchars
      have hlen := congrArg List.length hchars
      cases l with
      | nil => simp [itemText, String.toList_append] at hlen
      | cons y l =>
        rw [map_cons, intercalate_cons_cons] at hlen
        simp [itemText, String.toList_append] at hlen
    rw [setUserDefOutput, if_neg htext, hsplit, henter _ _ fun _ hx => hx, foldl_enter hm.sorted hm.listed]

/-! ## What reading gives -/

theorem printable_nil : Printable [] := ⟨.nil, nofun, nofun, nofun⟩

/-- An index read has 32 bits. -/
theorem stoi_bounded {s : String} (hi : stoi s = .ok i) : -(2 ^ 31) ≤ i ∧ i < 2 ^ 31 := by
  have hrange : ∀ value : Int, (if -(2 ^ 31) ≤ value ∧ value < 2 ^ 31 then .ok value else .error StoiError.outOfRange) =
      Except.ok i → -(2 ^ 31) ≤ i ∧ i < 2 ^ 31 := by
    intro value hvalue
    split at hvalue
    · rename_i hin
      obtain rfl := Except.ok.inj hvalue
      exact hin
    · cases hvalue
  unfold stoi at hi
  dsimp only at hi
  split at hi
  · cases hi
  · split at hi
    · cases hi
    · exact hrange _ hi

theorem printable_assign (hm : Printable m) (hname : ';' ∉ name.toList ∧ ':' ∉ name.toList) {idxes : List Int}
    (hlisted : idxes ≠ [] ∧ idxes.Nodup) (hbounded : ∀ i ∈ idxes, -(2 ^ 31) ≤ i ∧ i < 2 ^ 31) :
    Printable (m.assign name idxes) := by
  refine ⟨sorted_assign hm.sorted name idxes, fun e he => ?_, fun e he => ?_, fun e he => ?_⟩
  · rcases mem_of_mem_assign he with rfl | he
    · exact hname
    · exact hm.named e he
  · rcases mem_of_mem_assign he with rfl | he
    · exact hlisted
    · exact hm.listed e he
  · rcases mem_of_mem_assign he with rfl | he
    · exact hbounded
    · exact hm.bounded e he

/-- An item without the outer separator leaves a map that can be written. -/
theorem printable_enterOutput (hm : Printable m) {node : String} (hnode : ';' ∉ node.toList) : Printable (enterOutput m node) := by
  unfold enterOutput
  split
  · rename_i name text hsplit
    have hname : ';' ∉ name.toList ∧ ':' ∉ name.toList := by
      have hmem : name ∈ StringUtils.split node ':' := by simp [hsplit]
      rw [split_eq] at hmem
      obtain ⟨cs, hcs, rfl⟩ := List.mem_map.mp hmem
      rw [String.toList_ofList]
      exact ⟨fun hc => hnode (subset_of_mem_splitOn cs hcs hc), not_mem_of_mem_splitOn cs hcs⟩
    split
    · exact hm
    · rename_i index hindex
      have hbounded := stoi_bounded hindex
      split
      · exact printable_assign hm hname ⟨cons_ne_nil _ _, nodup_singleton _⟩ (by simpa using hbounded)
      · rename_i idxes hfind
        have he := mem_of_find hfind
        split
        · exact hm
        · rename_i hnew
          refine printable_assign hm hname ⟨by simp, ?_⟩ fun i hi => ?_
          · exact nodup_append.mpr ⟨(hm.listed _ he).2, nodup_singleton _, fun a ha b hb hab =>
              hnew (mem_singleton.mp hb ▸ hab ▸ ha)⟩
          · rcases mem_append.mp hi with hi | hi
            · exact hm.bounded _ he i hi
            · exact mem_singleton.mp hi ▸ hbounded
  · exact hm

/-- Whatever the text, the map can be written. -/
theorem printable_setUserDefOutput (s : String) : Printable (setUserDefOutput [] s) := by
  unfold setUserDefOutput
  split
  · exact printable_nil
  · suffices hrun : ∀ (l : List String) (m : OutNodesMap), (∀ node ∈ l, ';' ∉ node.toList) → Printable m →
        Printable (l.foldl enterOutput m) by
      refine hrun _ _ (fun node hnode => ?_) printable_nil
      rw [split_eq] at hnode
      obtain ⟨cs, hcs, rfl⟩ := List.mem_map.mp hnode
      rw [String.toList_ofList]
      exact not_mem_of_mem_splitOn cs hcs
    intro l
    induction l with
    | nil => exact fun _ _ hm => hm
    | cons node l ih =>
      exact fun m hl hm => ih _ (fun n hn => hl n (mem_cons_of_mem node hn))
        (printable_enterOutput hm (hl node mem_cons_self))

end UserOutputAux

open UserOutputAux

/-- A map is read back from its text, and what any text gives is read back from its own. -/
theorem user_outputs_round_trip :
    (∀ m, Printable m → setUserDefOutput [] (getOutput m) = m) ∧
      ∀ s, setUserDefOutput [] (getOutput (setUserDefOutput [] s)) = setUserDefOutput [] s :=
  ⟨fun _ hm => setUserDefOutput_getOutput hm, fun s => setUserDefOutput_getOutput (printable_setUserDefOutput s)⟩

/-- A name with blanks and the least and the greatest index. -/
theorem user_outputs_round_trip_blanks :
    setUserDefOutput [] (getOutput [("", [0]), (" a b", [-2147483648, 2147483647, -1])]) =
      [("", [0]), (" a b", [-2147483648, 2147483647, -1])] :=
  user_outputs_round_trip.1 _ ⟨by decide +kernel, by decide +kernel, by decide +kernel, by decide +kernel⟩

end Metadef
