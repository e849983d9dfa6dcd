import Metadef.ScopeGraph

/-!
# Helpers for `ScopeTree.lean`: names and directories

`SplitNodeName` builds the name of each scope by adding pieces to the one before. Here the pieces are those between the delimiters
(`split_eq`), and the names are those of the directories above the last piece that is not empty (`splitNodeName_eq`). Two
directories with the same name are the same (`dirName_injective`).
-/

namespace Metadef

open List

/-- The components of a name: what stands between its delimiters, without the empty ones. -/
def components (nodeName : String) : List String :=
  ((nodeName.toList.splitOn '/').filter fun item => item ≠ []).map String.ofList

/-- The name of a directory: each component and a delimiter after it. -/
def dirName (dir : List String) : String := String.join (dir.map fun item => item.push '/')

namespace ScopePathsAux

/-! ## The pieces -/

variable {delim : Char} {cs : List Char} {nodeName : String} {dir items : List String}
  {size i : Nat}

theorem getlines_eq {item : List Char} (hitem : delim ∉ item) (cs : List Char) (h : item ++ cs ≠ []) :
    StringUtils.getlines delim item cs ++ (if (item ++ cs).getLast? = some delim then [""] else []) =
      ((item ++ cs).splitOn delim).map String.ofList := by
  induction cs generalizing item with
  | nil =>
    rw [append_nil] at h
    have hlast : item.getLast? ≠ some delim := fun hl => hitem (mem_of_getLast? hl)
    rw [StringUtils.getlines, if_neg h, append_nil, if_neg hlast, splitOn_eq_singleton hitem]
    rfl
  | cons c cs ih =>
    unfold StringUtils.getlines
    by_cases hc : c = delim
    · subst hc
      rw [if_pos rfl, splitOn_append_cons_self_of_not_mem hitem, map_cons, cons_append]
      congr 1
      cases cs with
      | nil => simp [StringUtils.getlines]
      | cons d ds =>
        have hnone : c ∉ ([] : List Char) := by simp
        have hrest := ih hnone (by simp)
        rw [nil_append] at hrest
        rw [← hrest, getLast?_append_of_ne_nil _ (by simp), getLast?_cons_cons]
    · have hitem' : delim ∉ item ++ [c] := by
        rw [mem_append, mem_singleton]
        exact fun hm => hm.elim hitem fun h => hc h.symm
      rw [if_neg hc, append_cons item c cs]
      exact ih hitem' (by simp)

/-- The pieces of a string are what stands between the delimiters, empty or not. -/
theorem split_eq (str : String) (delim : Char) : StringUtils.split str delim = (str.toList.splitOn delim).map String.ofList := by
  unfold StringUtils.split
  split
  next h =>
    subst h
    simp
  next h => exact getlines_eq not_mem_nil _ (by simpa using h)

theorem not_mem_of_mem_splitOn : ∀ item ∈ cs.splitOn delim, delim ∉ item := by
  induction cs with
  | nil => simp
  | cons c cs ih =>
    intro item hitem
    rw [splitOn_cons_eq_if_modifyHead] at hitem
    split at hitem
    next =>
      rcases mem_cons.mp hitem with rfl | hitem
      · exact not_mem_nil
      · exact ih item hitem
    next hc =>
      obtain ⟨first, rest, hsplit⟩ := exists_cons_of_ne_nil (splitOn_ne_nil delim cs)
      rw [hsplit] at ih
      rw [hsplit, modifyHead_cons] at hitem
      rcases mem_cons.mp hitem with rfl | hitem
      · have hfirst := ih first mem_cons_self
        simp only [beq_iff_eq] at hc
        exact fun hm => (mem_cons.mp hm).elim (fun h => hc h.symm) hfirst
      · exact ih item (mem_cons_of_mem first hitem)

/-- A piece holds characters of the whole. -/
theorem subset_of_mem_splitOn : ∀ item ∈ cs.splitOn delim, item ⊆ cs := by
  induction cs with
  | nil => simp
  | cons c cs ih =>
    intro item hitem
    rw [splitOn_cons_eq_if_modifyHead] at hitem
    split at hitem
    next =>
      rcases mem_cons.mp hitem with rfl | hitem
      · exact nil_subset _
      · exact subset_cons_of_subset c (ih item hitem)
    next =>
      obtain ⟨first, rest, hsplit⟩ := exists_cons_of_ne_nil (splitOn_ne_nil delim cs)
      rw [hsplit] at ih
      rw [hsplit, modifyHead_cons] at hitem
      rcases mem_cons.mp hitem with rfl | hitem
      · exact cons_subset_cons c (ih first mem_cons_self)
      · exact subset_cons_of_subset c (ih item (mem_cons_of_mem first hitem))

/-- A component holds no delimiter. -/
theorem not_mem_component {item : String} (h : item ∈ components nodeName) : '/' ∉ item.toList := by
  obtain ⟨cs, hcs, rfl⟩ := List.mem_map.mp h
  rw [String.toList_ofList]
  exact not_mem_of_mem_splitOn cs (mem_of_mem_filter hcs)

/-- The components are the pieces of some length. -/
theorem components_eq (nodeName : String) :
    components nodeName = (StringUtils.split nodeName '/').filter fun item => item ≠ "" := by
  rw [split_eq, components, filter_map]
  congr 1
  refine filter_congr fun cs _ => ?_
  simp

/-! ## Directories -/

@[simp] theorem dirName_nil : dirName [] = "" := rfl

theorem toList_dirName (dir : List String) : (dirName dir).toList = dir.flatMap fun item => item.toList ++ ['/'] := by
  unfold dirName
  rw [String.toList_join]
  induction dir with
  | nil => rfl
  | cons item dir ih => simp [ih]

theorem dirName_concat (dir : List String) (item : String) : dirName (dir ++ [item]) = (dirName dir ++ item).push '/' := by
  apply String.toList_injective
  simp [toList_dirName]

/-- A directory is known by its name. -/
theorem dirName_injective : ∀ {dir dir' : List String}, (∀ item ∈ dir, '/' ∉ item.toList) → (∀ item ∈ dir', '/' ∉ item.toList) →
    dirName dir = dirName dir' → dir = dir' := by
  intro dir dir' hdir hdir' h
  have hlist := congrArg String.toList h
  rw [toList_dirName, toList_dirName] at hlist
  clear h
  induction dir generalizing dir' with
  | nil =>
    cases dir' with
    | nil => rfl
    | cons item' dir' => simp at hlist
  | cons item dir ih =>
    cases dir' with
    | nil => simp at hlist
    | cons item' dir' =>
      rw [flatMap_cons, flatMap_cons, append_assoc, append_assoc] at hlist
      -- the first delimiter is the same in both
      have hsplit := congrArg (List.splitOn '/') hlist
      rw [singleton_append, singleton_append, splitOn_append_cons_self_of_not_mem (hdir item mem_cons_self),
        splitOn_append_cons_self_of_not_mem (hdir' item' mem_cons_self)] at hsplit
      obtain ⟨hitem, -⟩ := List.cons.inj hsplit
      rw [hitem] at hlist
      obtain rfl : item = item' := String.toList_injective hitem
      have hrest := append_cancel_left (append_cancel_left hlist)
      rw [ih (fun i hi => hdir i (mem_cons_of_mem _ hi)) (fun i hi => hdir' i (mem_cons_of_mem _ hi)) hrest]

/-- The name of a directory begins with the names of those above it, and of no other. -/
theorem dirName_prefix_iff {dir' : List String} (hdir : ∀ item ∈ dir, '/' ∉ item.toList)
    (hdir' : ∀ item ∈ dir', '/' ∉ item.toList) : (dirName dir).toList <+: (dirName dir').toList ↔ dir <+: dir' := by
  rw [toList_dirName, toList_dirName]
  constructor
  · intro hpre
    induction dir generalizing dir' with
    | nil => exact nil_prefix
    | cons item dir ih =>
      cases dir' with
      | nil => simp at hpre
      | cons item' dir' =>
        obtain ⟨rest, hrest⟩ := hpre
        simp only [flatMap_cons, append_assoc, cons_append] at hrest
        -- the first delimiter is the same in both
        have hsplit := congrArg (List.splitOn '/') hrest
        rw [splitOn_append_cons_self_of_not_mem (hdir item mem_cons_self),
          splitOn_append_cons_self_of_not_mem (hdir' item' mem_cons_self)] at hsplit
        obtain rfl : item = item' := String.toList_injective (List.cons.inj hsplit).1
        have htail := (List.cons.inj (append_cancel_left hrest)).2
        have hbelow := ih (fun i hi => hdir i (mem_cons_of_mem _ hi)) (fun i hi => hdir' i (mem_cons_of_mem _ hi))
          ⟨rest, htail⟩
        rw [cons_prefix_cons]
        exact ⟨rfl, hbelow⟩
  · rintro ⟨rest, rfl⟩
    rw [flatMap_append]
    exact prefix_append _ _

/-! ## The scopes a name goes through -/

/-- The names of the directories below one, down a list of components. -/
def dirsFrom (dir : List String) : List String → List String
  | [] => []
  | item :: items => dirName (dir ++ [item]) :: dirsFrom (dir ++ [item]) items

theorem splitScopes_nil {scope : String}
    (h : items.filter (fun item => item ≠ "") = []) : ScopeTree.splitScopes size delim i items scope = [] := by
  induction items generalizing i with
  | nil => rfl
  | cons item items ih =>
    rw [filter_eq_nil_iff] at h
    have hitem : item = "" := by simpa using h item mem_cons_self
    unfold ScopeTree.splitScopes
    rw [if_pos (by simp [hitem])]
    exact ih (filter_eq_nil_iff.mpr fun x hx => h x (mem_cons_of_mem item hx))

theorem splitScopes_eq (hi : i + items.length = size) (hdir : i = 0 → dir = [])
    (hsome : items.filter (fun item => item ≠ "") ≠ []) :
    ∃ last, ScopeTree.splitScopes size '/' i items (dirName dir) =
      dirsFrom dir (items.filter fun item => item ≠ "").dropLast ++ [last] := by
  induction items generalizing i dir with
  | nil => exact absurd rfl hsome
  | cons item items ih =>
    rw [length_cons] at hi
    unfold ScopeTree.splitScopes
    by_cases hitem : item = ""
    · have hfilter : (item :: items).filter (fun item => item ≠ "") = items.filter fun item => item ≠ "" := by
        simp [hitem]
      rw [if_pos (by simp [hitem]), hfilter]
      rw [hfilter] at hsome
      exact ih (by omega) (by omega) hsome
    · have hfilter : (item :: items).filter (fun item => item ≠ "") = item :: items.filter fun item => item ≠ "" := by
        simp [hitem]
      have hscope : (if i = 0 then item else dirName dir ++ item) = dirName dir ++ item := by
        split
        next h => simp [hdir h]
        next => rfl
      rw [if_neg (by simpa using hitem), hfilter]
      simp only [hscope]
      by_cases hlast : items.filter (fun item => item ≠ "") = []
      · rw [hlast, dropLast_singleton]
        exact ⟨_, by rw [splitScopes_nil hlast]; rfl⟩
      · have hmore : i ≠ size - 1 := by
          intro h
          have hlength : items.length = 0 := by omega
          exact hlast (by rw [length_eq_zero_iff.mp hlength]; rfl)
        have hdir' : i + 1 = 0 → dir ++ [item] = [] := by omega
        obtain ⟨last, hrest⟩ := ih (by omega) hdir' hlast
        rw [if_pos hmore, ← dirName_concat, hrest, dropLast_cons_of_ne_nil hlast]
        exact ⟨last, rfl⟩

/-- A name with a component goes through the directories above its last one. -/
theorem splitNodeName_eq (h : components nodeName ≠ []) :
    ∃ last, ScopeTree.splitNodeName nodeName '/' = dirsFrom [] (components nodeName).dropLast ++ [last] := by
  have hname : nodeName ≠ "" := by
    rintro rfl
    exact h (by simp [components])
  rw [components_eq] at h ⊢
  rw [ScopeTree.splitNodeName, if_neg hname]
  exact splitScopes_eq (Nat.zero_add _) (fun _ => rfl) h

/-- A name without one goes through nothing. -/
theorem splitNodeName_nil (h : components nodeName = []) : ScopeTree.splitNodeName nodeName '/' = [] := by
  rw [components_eq] at h
  unfold ScopeTree.splitNodeName
  split
  next => rfl
  next => exact splitScopes_nil h

end ScopePathsAux

end Metadef
