import Mathlib.Data.Set.Finite.Basic

/-! # Preorder

The preorder of a forest given by the children of each item: each item, followed by the preorder of its children. A worklist that
puts the children of an item in its place walks in preorder, and returns when there is one. -/

namespace Metadef

open List

variable {ν : Type}

/-- A list followed item by item by what is below it. -/
inductive Preordered (kids : ν → List ν) : List ν → List ν → Prop where
  | nil : Preordered kids [] []
  | cons {n : ν} {rest below after : List ν} (hbelow : Preordered kids (kids n) below) (hafter : Preordered kids rest after) :
      Preordered kids (n :: rest) (n :: (below ++ after))

namespace Preordered

variable {kids kids' : ν → List ν} {l r out : List ν} {n : ν}

/-- The walk with a worklist: the first item is taken and its children are put in its place. How many items it takes stands for
whether it returns. -/
def walk (kids : ν → List ν) : Nat → List ν → Option (List ν)
  | 0, _ => none
  | _ + 1, [] => some []
  | fuel + 1, n :: rest => (walk kids fuel (kids n ++ rest)).map (n :: ·)

/-! ## Lists one after the other -/

theorem append {lout rout : List ν} (hl : Preordered kids l lout) (hr : Preordered kids r rout) :
    Preordered kids (l ++ r) (lout ++ rout) := by
  induction hl with
  | nil => exact hr
  | cons hbelow _ _ ih =>
    rw [cons_append, cons_append, append_assoc]
    exact .cons hbelow ih

theorem split (hp : Preordered kids (l ++ r) out) :
    ∃ lout rout, Preordered kids l lout ∧ Preordered kids r rout ∧ out = lout ++ rout := by
  induction l generalizing out with
  | nil => exact ⟨[], out, .nil, hp, rfl⟩
  | cons n l ih =>
    cases hp with
    | cons hbelow hafter =>
      obtain ⟨lout, rout, hl, hr, rfl⟩ := ih hafter
      exact ⟨_, rout, .cons hbelow hl, hr, by simp⟩

theorem subset (hp : Preordered kids l out) : l ⊆ out := by
  induction hp with
  | nil => exact List.Subset.refl _
  | cons _ _ _ ih => exact cons_subset_cons _ (List.Subset.trans ih (subset_append_right _ _))

/-- A list of items without children is its own preorder. -/
theorem of_no_kids (hkids : ∀ n, kids n = []) (l : List ν) : Preordered kids l l := by
  induction l with
  | nil => exact .nil
  | cons n l ih =>
    have hnone : Preordered kids (kids n) [] := by
      rw [hkids]
      exact .nil
    exact .cons hnone ih

/-! ## The walk -/

/-- The walk of a list with a preorder lists that, and goes on with what follows. -/
theorem walk_append (hp : Preordered kids l out) : ∀ fuel rest,
    walk kids (out.length + fuel) (l ++ rest) = (walk kids fuel rest).map (out ++ ·) := by
  induction hp with
  | nil =>
    intro fuel rest
    cases hw : walk kids fuel rest <;> simp [hw]
  | @cons n l below after _ _ ihb iha =>
    intro fuel rest
    have hlen : (n :: (below ++ after)).length + fuel = (below.length + (after.length + fuel)) + 1 := by
      simp only [length_cons, length_append]
      omega
    rw [hlen, cons_append, walk, ← append_assoc, append_assoc, ihb, iha]
    cases walk kids fuel rest <;> simp

/-- With enough steps the walk returns the preorder. -/
theorem walk_eq (hp : Preordered kids l out) {fuel : Nat} (hfuel : out.length < fuel) : walk kids fuel l = some out := by
  obtain ⟨k, rfl⟩ := Nat.exists_eq_add_of_lt hfuel
  have hw := hp.walk_append (k + 1) []
  rw [append_nil] at hw
  rw [Nat.add_assoc, hw]
  simp [walk]

/-- What the walk returns is the preorder. -/
theorem of_walk {fuel : Nat} (hw : walk kids fuel l = some out) : Preordered kids l out := by
  induction fuel generalizing l out with
  | zero => cases hw
  | succ fuel ih =>
    cases l with
    | nil =>
      obtain rfl : [] = out := Option.some.inj hw
      exact .nil
    | cons n rest =>
      obtain ⟨o, ho, rfl⟩ := Option.map_eq_some_iff.mp hw
      obtain ⟨below, after, hbelow, hafter, rfl⟩ := (ih ho).split
      exact .cons hbelow hafter

theorem unique {out' : List ν} (hp : Preordered kids l out) (hp' : Preordered kids l out') : out = out' := by
  induction hp generalizing out' with
  | nil =>
    cases hp'
    rfl
  | cons _ _ ihb iha =>
    cases hp' with
    | cons hbelow hafter => rw [ihb hbelow, iha hafter]

/-- Where descending through children ends, there is a preorder. -/
theorem exists_of_acc (hacc : ∀ n ∈ l, Acc (fun m n => m ∈ kids n) n) : ∃ out, Preordered kids l out := by
  have hlist : ∀ l : List ν, (∀ n ∈ l, ∃ below, Preordered kids (kids n) below) → ∃ out, Preordered kids l out := by
    intro l
    induction l with
    | nil => exact fun _ => ⟨[], .nil⟩
    | cons n l ih =>
      intro hl
      obtain ⟨below, hbelow⟩ := hl n mem_cons_self
      obtain ⟨after, hafter⟩ := ih fun m hm => hl m (mem_cons_of_mem n hm)
      exact ⟨_, .cons hbelow hafter⟩
  have hone : ∀ n, Acc (fun m n => m ∈ kids n) n → ∃ below, Preordered kids (kids n) below := by
    intro n hn
    induction hn with
    | intro n _ ih => exact hlist (kids n) ih
  exact hlist l fun n hn => hone n (hacc n hn)

/-- A relation to the items of a list that has no cycle comes to an end. -/
theorem acc_of_acyclic {r : ν → ν → Prop} (items : List ν) (hitems : ∀ m n, r m n → n ∈ items)
    (hacyclic : ∀ n, ¬ Relation.TransGen r n n) (m : ν) : Acc (fun n m => r m n) m := by
  have hfinite : Finite {n // n ∈ items} := (finite_toSet items).to_subtype
  have htrans : IsTrans {n // n ∈ items} fun n m => Relation.TransGen r m.1 n.1 := ⟨fun _ _ _ h h' => h'.trans h⟩
  have hirrefl : Std.Irrefl fun n m : {n // n ∈ items} => Relation.TransGen r m.1 n.1 := ⟨fun n => hacyclic n.1⟩
  have hwf := Finite.wellFounded_of_trans_of_irrefl fun n m : {n // n ∈ items} => Relation.TransGen r m.1 n.1
  have hitem : ∀ n : {n // n ∈ items}, Acc (fun n m => r m n) n.1 := by
    intro n
    induction n using hwf.induction with
    | _ n ih => exact ⟨_, fun k hk => ih ⟨k, hitems _ _ hk⟩ (.single hk)⟩
  exact ⟨_, fun n hn => hitem ⟨n, hitems m n hn⟩⟩

/-! ## What is listed -/

/-- The items listed are those of the list and the children of those listed. -/
theorem perm (hp : Preordered kids l out) : out.Perm (l ++ out.flatMap kids) := by
  induction hp with
  | nil => exact .nil
  | @cons n rest below after _ _ ihb iha =>
    rw [flatMap_cons, flatMap_append, cons_append]
    refine List.Perm.cons n ?_
    calc (below ++ after).Perm ((kids n ++ below.flatMap kids) ++ (rest ++ after.flatMap kids)) := ihb.append iha
      _ |>.Perm (rest ++ ((kids n ++ below.flatMap kids) ++ after.flatMap kids)) := by
        rw [← append_assoc, ← append_assoc]
        exact List.Perm.append_right _ perm_append_comm
      _ = rest ++ (kids n ++ (below.flatMap kids ++ after.flatMap kids)) := by rw [append_assoc]

/-- The items listed are those the list leads to through children. -/
theorem mem_iff (hp : Preordered kids l out) {x : ν} : x ∈ out ↔ ∃ r ∈ l, Relation.ReflTransGen (fun m n => n ∈ kids m) r x := by
  constructor
  · intro hx
    induction hp with
    | nil => cases hx
    | @cons n rest below after _ _ ihb iha =>
      rcases mem_cons.mp hx with rfl | hx
      · exact ⟨x, mem_cons_self, .refl⟩
      · rcases mem_append.mp hx with hx | hx
        · obtain ⟨r, hr, hreach⟩ := ihb hx
          exact ⟨n, mem_cons_self, hreach.head hr⟩
        · obtain ⟨r, hr, hreach⟩ := iha hx
          exact ⟨r, mem_cons_of_mem n hr, hreach⟩
  · rintro ⟨r, hr, hreach⟩
    induction hreach with
    | refl => exact hp.subset hr
    | tail _ hstep ih =>
      exact hp.perm.mem_iff.mpr (mem_append_right l (mem_flatMap.mpr ⟨_, ih, hstep⟩))

/-- Where no item is listed twice or is a child of two, none is in the preorder twice. -/
theorem nodup (hp : Preordered kids l out) (hl : l.Nodup) (hkids : ∀ m ∈ out, (kids m).Nodup)
    (hapart : ∀ m ∈ out, ∀ n ∈ out, ∀ x ∈ kids m, x ∈ kids n → m = n) (hroots : ∀ m ∈ out, ∀ x ∈ kids m, x ∉ l) :
    out.Nodup := by
  -- the walk keeps what it has taken and what it holds free of repeats, all of it roots or children of what it has taken
  have hwalk : ∀ fuel taken held o, (∀ x ∈ taken ++ o, x ∈ out) → (taken ++ held).Nodup →
      (∀ x ∈ taken ++ held, x ∈ l ∨ ∃ m ∈ taken, x ∈ kids m) → walk kids fuel held = some o → (taken ++ o).Nodup := by
    intro fuel
    induction fuel with
    | zero =>
      intro taken held o _ _ _ hw
      cases hw
    | succ fuel ih =>
      intro taken held o hin hnodup hfrom hw
      cases held with
      | nil =>
        obtain rfl : [] = o := Option.some.inj hw
        exact hnodup
      | cons n rest =>
        obtain ⟨o, ho, rfl⟩ := Option.map_eq_some_iff.mp hw
        have hn : n ∈ out := hin n (by simp)
        have hnot : n ∉ taken := fun h => (nodup_append.mp hnodup).2.2 n h n mem_cons_self rfl
        have hcons : taken ++ n :: o = (taken ++ [n]) ++ o := by simp
        have hheld : taken ++ n :: rest = (taken ++ [n]) ++ rest := by simp
        rw [hheld] at hnodup
        -- a child of the item taken is new
        have hfresh : ∀ x ∈ kids n, x ∉ (taken ++ [n]) ++ rest := by
          intro x hx hmem
          rw [← hheld] at hmem
          rcases hfrom x hmem with hroot | ⟨m, hm, hxm⟩
          · exact hroots n hn x hx hroot
          · exact hnot (hapart m (hin m (by simp [hm])) n hn x hxm hx ▸ hm)
        rw [hcons]
        refine ih (taken ++ [n]) (kids n ++ rest) o (fun x hx => hin x (hcons ▸ hx)) ?_ ?_ ho
        · have hperm : ((taken ++ [n]) ++ (kids n ++ rest)).Perm (kids n ++ ((taken ++ [n]) ++ rest)) := by
            rw [← append_assoc, ← append_assoc]
            exact List.Perm.append_right _ perm_append_comm
          rw [hperm.nodup_iff, nodup_append]
          exact ⟨hkids n hn, hnodup, fun x hx y hy hxy => hfresh x hx (hxy ▸ hy)⟩
        · intro x hx
          rw [mem_append, mem_append (s := kids n), or_left_comm] at hx
          rcases hx with hx | hx
          · exact .inr ⟨n, by simp, hx⟩
          · rcases hfrom x (by rw [hheld]; exact mem_append.mpr hx) with hroot | ⟨m, hm, hxm⟩
            · exact .inl hroot
            · exact .inr ⟨m, by simp [hm], hxm⟩
  exact hwalk (out.length + 1) [] l out (fun _ hx => hx) hl (fun _ hx => .inl hx) (hp.walk_eq (Nat.lt_succ_self _))

/-- An item of a row is followed by what is below it, and that by what follows it in the row. A row is the list or the children
of an item. -/
theorem row {s t : List ν} (hp : Preordered kids l out) (hrow : l = s ++ n :: t ∨ ∃ m ∈ out, kids m = s ++ n :: t) :
    ∃ pre below after post, out = pre ++ n :: (below ++ (after ++ post)) ∧ Preordered kids (kids n) below ∧ t ⊆ after := by
  have hself : ∀ {l out}, Preordered kids l out → l = s ++ n :: t →
      ∃ pre below after post, out = pre ++ n :: (below ++ (after ++ post)) ∧ Preordered kids (kids n) below ∧ t ⊆ after := by
    rintro l out hp rfl
    obtain ⟨pre, rest, -, hrest, rfl⟩ := hp.split
    cases hrest with
    | cons hbelow hafter => exact ⟨pre, _, _, [], by simp, hbelow, hafter.subset⟩
  rcases hrow with hrow | ⟨m, hm, hrow⟩
  · exact hself hp hrow
  · induction hp with
    | nil => cases hm
    | @cons k rest below after hb _ ihb iha =>
      rcases mem_cons.mp hm with rfl | hm
      · obtain ⟨pre, b, a, post, rfl, hbelow, ht⟩ := hself hb hrow
        exact ⟨m :: pre, b, a, post ++ after, by simp, hbelow, ht⟩
      · rcases mem_append.mp hm with hm | hm
        · obtain ⟨pre, b, a, post, rfl, hbelow, ht⟩ := ihb hm
          exact ⟨k :: pre, b, a, post ++ after, by simp, hbelow, ht⟩
        · obtain ⟨pre, b, a, post, rfl, hbelow, ht⟩ := iha hm
          exact ⟨k :: (below ++ pre), b, a, post, by simp, hbelow, ht⟩

/-! ## Other orders of the children -/

/-- Forests with the same children in other orders have the same items in preorder. -/
theorem of_perm (hkids : ∀ n, (kids' n).Perm (kids n)) (hp : Preordered kids l out) :
    ∀ {l'}, l'.Perm l → ∃ out', Preordered kids' l' out' ∧ out'.Perm out := by
  induction hp with
  | nil =>
    intro l' hl
    obtain rfl := hl.eq_nil
    exact ⟨[], .nil, .nil⟩
  | @cons n rest below after _ _ ihb iha =>
    intro l' hl
    obtain ⟨s, t, rfl⟩ := append_of_mem (hl.mem_iff.mpr mem_cons_self)
    have hrest : (s ++ t).Perm rest := (perm_middle.symm.trans hl).cons_inv
    obtain ⟨b, hb, hbp⟩ := ihb (hkids n)
    obtain ⟨a, ha, hap⟩ := iha hrest
    obtain ⟨before, behind, hs, ht, rfl⟩ := ha.split
    refine ⟨before ++ n :: (b ++ behind), hs.append (.cons hb ht), perm_middle.trans (List.Perm.cons n ?_)⟩
    calc (before ++ (b ++ behind)).Perm (b ++ (before ++ behind)) := by
          rw [← append_assoc, ← append_assoc]
          exact List.Perm.append_right _ perm_append_comm
      _ |>.Perm (below ++ after) := hbp.append hap

end Preordered

end Metadef
