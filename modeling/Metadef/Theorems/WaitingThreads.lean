import Mathlib.Data.List.Nodup
import Metadef.BlockingQueue

/-!
# The blocking queue keeps its items and its waiters

Over every interleaving the items popped and those in the queue are the accepted pushes in order, but for those dropped, and
nothing passes while the queue is stopped. No waiter is stranded in the runs that clear the queue only when the woken producers
fill it again, or no producer sleeps that no broadcast is to wake.
-/

namespace Metadef

open List CondVar Nat

/-- The accepted pushes that were not dropped. -/
def QueueHistory.kept {α : Type} (h : QueueHistory α) : List (Nat × α) := h.accepted.filter fun x => !h.dropped.contains x.1

namespace BlockingQueue

variable {τ α : Type}

/-! ## The items -/

/-- The items popped and those in the queue are the accepted pushes that were not dropped, each once and in order. -/
structure Ordered (q : BlockingQueue τ α) : Prop where
  numbered : q.history.accepted.map Prod.fst = List.range q.history.accepted.length
  inQueue : q.history.inQueue.map Prod.snd = q.queue
  kept : q.history.popped ++ q.history.inQueue = q.history.kept
  dropped : ∀ k ∈ q.history.dropped, k < q.history.accepted.length

/-- Nothing was accepted and nothing popped in a step. -/
def Unchanged (q q' : BlockingQueue τ α) : Prop :=
  q'.queue = q.queue ∧ q'.history = q.history

variable {q q' : BlockingQueue τ α} {item : α}

theorem Ordered.of_unchanged (h : q.Ordered) (he : Unchanged q q') : q'.Ordered := by
  obtain ⟨hq, hh⟩ := he
  refine ⟨?_, ?_, ?_, ?_⟩ <;> rw [hh]
  · exact h.numbered
  · exact h.inQueue.trans hq.symm
  · exact h.kept
  · exact h.dropped

/-- Appending an accepted push keeps the order. -/
theorem Ordered.push (h : q.Ordered) (hq : q'.queue = q.queue ++ [item]) (hh : q'.history = q.history.push item) : q'.Ordered := by
  refine ⟨?_, ?_, ?_, ?_⟩ <;> rw [hh]
  · simp [QueueHistory.push, h.numbered, range_succ]
  · simp [QueueHistory.push, h.inQueue, hq]
  · have hnew : q.history.accepted.length ∉ q.history.dropped := fun hm => Nat.lt_irrefl _ (h.dropped _ hm)
    have hkept : (q.history.push item).kept = q.history.kept ++ [(q.history.accepted.length, item)] := by
      simp [QueueHistory.push, QueueHistory.kept, filter_append, hnew]
    rw [hkept, ← h.kept, append_assoc]
    rfl
  · intro k hk
    simpa [QueueHistory.push] using lt_succ_of_lt (h.dropped k hk)

/-- Taking the first item keeps the order. -/
theorem Ordered.pop (h : q.Ordered) (hq : q.queue = item :: q'.queue) (hh : q'.history = q.history.pop) : q'.Ordered := by
  have hin := h.inQueue
  rw [hq] at hin
  obtain ⟨x, l, hl, rfl, hrest⟩ := map_eq_cons_iff.mp hin
  refine ⟨?_, ?_, ?_, ?_⟩ <;> rw [hh]
  · exact h.numbered
  · simp only [QueueHistory.pop, hl, tail_cons]
    exact hrest
  · have hk := h.kept
    rw [hl] at hk
    simp only [QueueHistory.pop, hl, head?_cons, Option.toList_some, tail_cons, append_assoc, cons_append,
      nil_append]
    exact hk
  · exact h.dropped

/-- Dropping what is in the queue keeps the order: what was popped has other numbers. -/
theorem Ordered.clear (h : q.Ordered) : q.clear.Ordered := by
  have hnodup : (q.history.kept.map Prod.fst).Nodup := by
    refine List.Nodup.sublist (filter_sublist.map _) ?_
    rw [h.numbered]
    exact nodup_range
  rw [← h.kept, map_append] at hnodup
  have hapart := (nodup_append.mp hnodup).2.2
  refine ⟨h.numbered, rfl, ?_, fun k hk => ?_⟩
  · have hsplit : q.clear.history.kept = q.history.kept.filter fun x => !(q.history.inQueue.map Prod.fst).contains x.1 := by
      simp only [QueueHistory.kept, BlockingQueue.clear, QueueHistory.clear, filter_filter]
      refine filter_congr fun x _ => ?_
      simp only [contains_eq_mem, mem_append, Bool.decide_or, Bool.not_or]
      exact Bool.and_comm _ _
    rw [hsplit, ← h.kept, filter_append]
    have hpopped : (q.history.popped.filter fun x => !(q.history.inQueue.map Prod.fst).contains x.1) = q.history.popped := by
      refine filter_eq_self.mpr fun x hx => ?_
      have hnot : x.1 ∉ q.history.inQueue.map Prod.fst := fun hm => hapart x.1 (mem_map_of_mem hx) x.1 hm rfl
      simpa only [contains_eq_mem, Bool.not_eq_true', decide_eq_false_iff_not] using hnot
    have hqueued : (q.history.inQueue.filter fun x => !(q.history.inQueue.map Prod.fst).contains x.1) = [] := by
      refine filter_eq_nil_iff.mpr fun x hx => ?_
      have hm : x.1 ∈ q.history.inQueue.map Prod.fst := mem_map_of_mem hx
      simpa only [contains_eq_mem, Bool.not_eq_true', decide_eq_false_iff_not, not_not] using hm
    rw [hpopped, hqueued]
    rfl
  · rcases mem_append.mp hk with hk | hk
    · exact h.dropped k hk
    · obtain ⟨x, hx, rfl⟩ := List.mem_map.mp hk
      have hmem : x ∈ q.history.accepted := by
        have hm : x ∈ q.history.kept := h.kept ▸ mem_append_right _ hx
        exact mem_of_mem_filter hm
      have hn : x.1 ∈ q.history.accepted.map Prod.fst := mem_map_of_mem hmem
      rw [h.numbered] at hn
      exact mem_range.mp hn

/-! ## What an operation does -/

section
variable {maxSize : Nat} {q q' : BlockingQueue τ α} {r : Option (QueueResult α)} {t : τ} {item : α} {isWait : Bool} {wake : Nat}

/-- A push is refused, goes to sleep on a full queue, or is accepted below the bound and wakes a consumer. -/
theorem push_cases (hr : q.push maxSize t item isWait wake = some (q', r)) :
    (r = some (.pushed false) ∧ q' = q ∧ (maxSize ≤ q.queue.length ∨ q.isStoped = true)) ∨
      (r = none ∧ maxSize ≤ q.queue.length ∧ q.isStoped = false ∧ q' = { q with fullCond := q.fullCond.wait (t, item) }) ∨
      (r = some (.pushed true) ∧ q.queue.length < maxSize ∧ q.isStoped = false ∧ ∃ c, q.emptyCond.notifyOne wake = some c ∧
        q' = { q with queue := q.queue ++ [item], emptyCond := c, history := q.history.push item }) := by
  unfold push at hr
  split at hr
  · rename_i hfull
    split at hr
    · obtain ⟨rfl, rfl⟩ := Prod.mk.inj (Option.some.inj hr)
      exact .inr (.inl ⟨rfl, hfull.1, hfull.2, rfl⟩)
    · obtain ⟨rfl, rfl⟩ := Prod.mk.inj (Option.some.inj hr)
      exact .inl ⟨rfl, rfl, .inl hfull.1⟩
  · rename_i hfree
    split at hr
    · rename_i hstop
      obtain ⟨rfl, rfl⟩ := Prod.mk.inj (Option.some.inj hr)
      exact .inl ⟨rfl, rfl, .inr hstop⟩
    · rename_i hstop
      have hrun : q.isStoped = false := by simpa using hstop
      have hlt : q.queue.length < maxSize := Nat.lt_of_not_le fun hle => hfree ⟨hle, hrun⟩
      split at hr
      · cases hr
      · rename_i c hc
        obtain ⟨rfl, rfl⟩ := Prod.mk.inj (Option.some.inj hr)
        exact .inr (.inr ⟨rfl, hlt, hrun, c, hc, rfl⟩)

/-- A pop is refused, goes to sleep on an empty queue, or takes the first item and wakes a producer. -/
theorem pop_cases (hr : q.pop t wake = some (q', r)) : (r = some (.popped none) ∧ q' = q ∧ q.isStoped = true) ∨
      (r = none ∧ q.queue = [] ∧ q.isStoped = false ∧ q' = { q with emptyCond := q.emptyCond.wait t }) ∨
      ∃ item rest c, r = some (.popped (some item)) ∧ q.queue = item :: rest ∧ q.isStoped = false ∧
        q.fullCond.notifyOne wake = some c ∧ q' = { q with queue := rest, fullCond := c, history := q.history.pop } := by
  unfold pop at hr
  split at hr
  · rename_i hstop
    obtain ⟨rfl, rfl⟩ := Prod.mk.inj (Option.some.inj hr)
    exact .inl ⟨rfl, rfl, hstop⟩
  · rename_i hstop
    have hrun : q.isStoped = false := by simpa using hstop
    split at hr
    · rename_i hq
      obtain ⟨rfl, rfl⟩ := Prod.mk.inj (Option.some.inj hr)
      exact .inr (.inl ⟨rfl, hq, hrun, rfl⟩)
    · rename_i item rest hq
      split at hr
      · cases hr
      · rename_i c hc
        obtain ⟨rfl, rfl⟩ := Prod.mk.inj (Option.some.inj hr)
        exact .inr (.inr ⟨item, rest, c, rfl, hq, hrun, hc, rfl⟩)

/-! ## Order and bound -/

/-- The items are in order, and there are no more of them than the bound. -/
structure Safe (maxSize : Nat) (q : BlockingQueue τ α) : Prop where
  ordered : q.Ordered
  bounded : q.queue.length ≤ maxSize

theorem Safe.of_unchanged (h : Safe maxSize q) (he : Unchanged q q') : Safe maxSize q' :=
  ⟨h.ordered.of_unchanged he, he.1 ▸ h.bounded⟩

theorem Safe.push (h : Safe maxSize q) (hr : q.push maxSize t item isWait wake = some (q', r)) : Safe maxSize q' := by
  rcases push_cases hr with ⟨-, rfl, -⟩ | ⟨-, -, -, rfl⟩ | ⟨-, hlt, -, c, -, rfl⟩
  · exact h
  · exact h.of_unchanged ⟨rfl, rfl⟩
  · refine ⟨h.ordered.push rfl rfl, ?_⟩
    rw [length_append, length_singleton]
    exact hlt

theorem Safe.pop (h : Safe maxSize q) (hr : q.pop t wake = some (q', r)) : Safe maxSize q' := by
  rcases pop_cases hr with ⟨-, rfl, -⟩ | ⟨-, -, -, rfl⟩ | ⟨item, rest, c, -, hq, -, -, rfl⟩
  · exact h
  · exact h.of_unchanged ⟨rfl, rfl⟩
  · refine ⟨h.ordered.pop hq rfl, ?_⟩
    have hlen := h.bounded
    rw [hq] at hlen
    exact le_of_succ_le hlen

/-! ## Waiters -/

/-- While no broadcast is to come, the woken producers cover the places given and the woken consumers the items given, and
nobody sleeps once the queue is stopped. -/
structure Awake (places items : Nat) (q : BlockingQueue τ α) : Prop where
  producers : q.stopping = [] → q.fullCond.Covers places
  consumers : q.stopping = [] → q.halfStopped = [] → q.emptyCond.Covers items
  stoppedFull : q.isStoped = true → q.stopping = [] → q.fullCond.asleep = []
  stoppedEmpty : q.isStoped = true → q.stopping = [] → q.halfStopped = [] → q.emptyCond.asleep = []

/-- A push takes a place: a producer that was woken for it, or a newcomer. -/
theorem Awake.push (h : q.Awake (maxSize - q.queue.length - 1) q.queue.length)
    (hr : q.push maxSize t item isWait wake = some (q', r)) : q'.Awake (maxSize - q'.queue.length) q'.queue.length := by
  rcases push_cases hr with ⟨-, rfl, hwhy⟩ | ⟨-, hfull, hrun, rfl⟩ | ⟨-, hlt, hrun, c, hc, rfl⟩
  · refine ⟨fun hs => ?_, h.consumers, h.stoppedFull, h.stoppedEmpty⟩
    rcases hwhy with hfull | hstop
    · rw [Nat.sub_eq_zero_of_le hfull]
      exact covers_zero _
    · exact covers_of_awake (h.stoppedFull hstop hs) _
  · refine ⟨fun _ => ?_, h.consumers, fun hstop => ?_, h.stoppedEmpty⟩
    · rw [Nat.sub_eq_zero_of_le hfull]
      exact covers_zero _
    · rw [hrun] at hstop
      cases hstop
  · refine ⟨fun hs => (h.producers hs).mono (by simp only [length_append, length_singleton]; omega),
      fun hs hs' => ?_, h.stoppedFull, fun hstop => ?_⟩
    · simpa using (h.consumers hs hs').notifyOne hc
    · rw [hrun] at hstop
      cases hstop

/-- A pop takes an item: a consumer that was woken for it, or a newcomer. -/
theorem Awake.pop (h : q.Awake (maxSize - q.queue.length) (q.queue.length - 1)) (hbound : q.queue.length ≤ maxSize)
    (hr : q.pop t wake = some (q', r)) : q'.Awake (maxSize - q'.queue.length) q'.queue.length := by
  rcases pop_cases hr with ⟨-, rfl, hstop⟩ | ⟨-, hq, hrun, rfl⟩ | ⟨item, rest, c, -, hq, hrun, hc, rfl⟩
  · exact ⟨h.producers, fun hs hs' => covers_of_awake (h.stoppedEmpty hstop hs hs') _, h.stoppedFull, h.stoppedEmpty⟩
  · refine ⟨h.producers, fun _ _ => ?_, h.stoppedFull, fun hstop => ?_⟩
    · rw [hq]
      exact covers_zero _
    · rw [hrun] at hstop
      cases hstop
  · rw [hq, length_cons] at hbound h
    refine ⟨fun hs => ?_, fun hs hs' => ?_, fun hstop => ?_, h.stoppedEmpty⟩
    · exact ((h.producers hs).notifyOne hc).mono (by simp only; omega)
    · simpa using h.consumers hs hs'
    · rw [hrun] at hstop
      cases hstop

/-- What is kept of the waiters. -/
abbrev Attended (maxSize : Nat) (q : BlockingQueue τ α) : Prop := q.Awake (maxSize - q.queue.length) q.queue.length

/-- Where a producer sleeps below the bound or a consumer while there are items, another of its kind is woken and has not run, or
a broadcast that wakes it is to come. -/
def NoneStranded (maxSize : Nat) (q : BlockingQueue τ α) : Prop :=
  (q.fullCond.asleep ≠ [] → q.queue.length < maxSize → q.fullCond.woken ≠ [] ∨ q.stopping ≠ []) ∧
    (q.emptyCond.asleep ≠ [] → q.queue ≠ [] → q.emptyCond.woken ≠ [] ∨ q.stopping ≠ [] ∨ q.halfStopped ≠ [])

theorem Awake.noneStranded (h : Attended maxSize q) : NoneStranded maxSize q := by
  constructor
  · intro hasleep hlt
    by_cases hs : q.stopping = []
    · exact .inl ((h.producers hs).woken_ne_nil (Nat.sub_pos_of_lt hlt) hasleep)
    · exact .inr hs
  · intro hasleep hne
    by_cases hs : q.stopping = []
    · by_cases hs' : q.halfStopped = []
      · exact .inl ((h.consumers hs hs').woken_ne_nil (length_pos_iff.mpr hne) hasleep)
      · exact .inr (.inr hs')
    · exact .inr (.inl hs)

/-! ## Steps -/

variable [DecidableEq τ]

/-- The condition on a step: the queue is cleared only when a broadcast is to wake the producers, or those woken fill the queue,
or none sleeps. -/
def ClearsCovered (maxSize : Nat) (q : BlockingQueue τ α) : QueueCall τ α → Prop
  | .clear => q.stopping = [] → q.fullCond.Covers maxSize
  | _ => True

theorem safe_step {call : QueueCall τ α} (h : Safe maxSize q) (hr : q.step maxSize call = some (q', r)) : Safe maxSize q' := by
  cases call with
  | push t item isWait wake =>
    simp only [step] at hr
    split at hr
    · exact h.push hr
    · cases hr
  | pushOn k wake =>
    simp only [step] at hr
    split at hr
    · cases hr
    · refine Safe.push ?_ hr
      exact h.of_unchanged ⟨rfl, rfl⟩
  | pop t wake =>
    simp only [step] at hr
    split at hr
    · exact h.pop hr
    · cases hr
  | popOn k wake =>
    simp only [step] at hr
    split at hr
    · cases hr
    · refine Safe.pop ?_ hr
      exact h.of_unchanged ⟨rfl, rfl⟩
  | stop t =>
    simp only [step] at hr
    split at hr
    · obtain ⟨rfl, -⟩ := Prod.mk.inj (Option.some.inj hr)
      exact h.of_unchanged ⟨rfl, rfl⟩
    · cases hr
  | notifyFull i | notifyEmpty i =>
    simp only [step] at hr
    split at hr
    · cases hr
    · obtain ⟨rfl, -⟩ := Prod.mk.inj (Option.some.inj hr)
      exact h.of_unchanged ⟨rfl, rfl⟩
  | restart | getRemainItems | isFull =>
    obtain ⟨rfl, -⟩ := Prod.mk.inj (Option.some.inj hr)
    exact h.of_unchanged ⟨rfl, rfl⟩
  | clear =>
    obtain ⟨rfl, -⟩ := Prod.mk.inj (Option.some.inj hr)
    exact ⟨h.ordered.clear, Nat.zero_le _⟩
  | spuriousFull i | spuriousEmpty i =>
    obtain ⟨c, -, he⟩ := Option.map_eq_some_iff.mp hr
    obtain ⟨rfl, -⟩ := Prod.mk.inj he
    exact h.of_unchanged ⟨rfl, rfl⟩

/-- A step that clears no queue its producers still sleep on keeps the waiters attended. -/
theorem attended_step {call : QueueCall τ α} (hs : Safe maxSize q) (h : Attended maxSize q)
    (hc : ClearsCovered maxSize q call) (hr : q.step maxSize call = some (q', r)) : Attended maxSize q' := by
  cases call with
  | push t item isWait wake =>
    simp only [step] at hr
    split at hr
    · exact Awake.push ⟨fun hq => (h.producers hq).mono (sub_le _ _), h.consumers, h.stoppedFull, h.stoppedEmpty⟩ hr
    · cases hr
  | pushOn k wake =>
    simp only [step] at hr
    split at hr
    · cases hr
    · rename_i c hres
      refine Awake.push ?_ hr
      refine ⟨fun hq => (h.producers hq).resume hres, h.consumers, fun hstop hq => ?_, h.stoppedEmpty⟩
      exact (asleep_resume hres).trans (h.stoppedFull hstop hq)
  | pop t wake =>
    simp only [step] at hr
    split at hr
    · exact Awake.pop ⟨h.producers, fun hq hq' => (h.consumers hq hq').mono (sub_le _ _), h.stoppedFull, h.stoppedEmpty⟩
        hs.bounded hr
    · cases hr
  | popOn k wake =>
    simp only [step] at hr
    split at hr
    · cases hr
    · rename_i c hres
      refine Awake.pop ?_ ?_ hr
      · refine ⟨h.producers, fun hq hq' => (h.consumers hq hq').resume hres, h.stoppedFull, fun hstop hq hq' => ?_⟩
        exact (asleep_resume hres).trans (h.stoppedEmpty hstop hq hq')
      · exact hs.bounded
  | stop t =>
    simp only [step] at hr
    split at hr
    · obtain ⟨rfl, -⟩ := Prod.mk.inj (Option.some.inj hr)
      have hne : (q.stop t).stopping ≠ [] := by simp [stop]
      exact ⟨fun hq => absurd hq hne, fun hq => absurd hq hne, fun _ hq => absurd hq hne, fun _ hq => absurd hq hne⟩
    · cases hr
  | notifyFull i =>
    simp only [step] at hr
    split at hr
    · cases hr
    · obtain ⟨rfl, -⟩ := Prod.mk.inj (Option.some.inj hr)
      refine ⟨fun _ => covers_of_awake rfl _, fun _ hq => ?_, fun _ _ => rfl, fun _ _ hq => ?_⟩
      · simp at hq
      · simp at hq
  | notifyEmpty i =>
    simp only [step] at hr
    split at hr
    · cases hr
    · obtain ⟨rfl, -⟩ := Prod.mk.inj (Option.some.inj hr)
      exact ⟨h.producers, fun _ _ => covers_of_awake rfl _, h.stoppedFull, fun _ _ _ => rfl⟩
  | restart =>
    obtain ⟨rfl, -⟩ := Prod.mk.inj (Option.some.inj hr)
    exact ⟨h.producers, h.consumers, fun hstop => absurd hstop Bool.false_ne_true, fun hstop => absurd hstop Bool.false_ne_true⟩
  | getRemainItems | isFull =>
    obtain ⟨rfl, -⟩ := Prod.mk.inj (Option.some.inj hr)
    exact h
  | clear =>
    obtain ⟨rfl, -⟩ := Prod.mk.inj (Option.some.inj hr)
    exact ⟨hc, fun _ _ => covers_zero _, h.stoppedFull, h.stoppedEmpty⟩
  | spuriousFull i =>
    obtain ⟨c, hw, he⟩ := Option.map_eq_some_iff.mp hr
    obtain ⟨rfl, -⟩ := Prod.mk.inj he
    refine ⟨fun hq => ((h.producers hq).wake hw).mono (le_succ _), h.consumers, fun hstop hq => ?_, h.stoppedEmpty⟩
    exact asleep_wake hw (h.stoppedFull hstop hq)
  | spuriousEmpty i =>
    obtain ⟨c, hw, he⟩ := Option.map_eq_some_iff.mp hr
    obtain ⟨rfl, -⟩ := Prod.mk.inj he
    refine ⟨h.producers, fun hq hq' => ((h.consumers hq hq').wake hw).mono (le_succ _), h.stoppedFull, fun hstop hq hq' => ?_⟩
    exact asleep_wake hw (h.stoppedEmpty hstop hq hq')

/-! ## A stopped queue -/

/-- In a stopped queue no step accepts a push or pops an item, and reading the items left returns the content. -/
def Closed (maxSize : Nat) (q : BlockingQueue τ α) : Prop :=
  q.isStoped = true →
    (∀ call q' r, q.step maxSize call = some (q', r) → r ≠ some (.pushed true) ∧ (∀ item, r ≠ some (.popped (some item))) ∧
      q'.history.accepted = q.history.accepted ∧ q'.history.popped = q.history.popped) ∧
    q.step maxSize .getRemainItems = some (q, some (.items q.queue))

theorem closed (maxSize : Nat) (q : BlockingQueue τ α) : Closed maxSize q := by
  intro hstop
  refine ⟨fun call q' r hr => ?_, ?_⟩
  · cases call with
    | push t item isWait wake | pushOn k wake | pop t wake | popOn k wake =>
      simp only [step, push, pop, hstop] at hr
      grind
    | stop t | notifyFull i | notifyEmpty i =>
      simp only [step] at hr
      split at hr <;> grind [stop]
    | restart | getRemainItems | isFull | clear =>
      obtain ⟨rfl, rfl⟩ := Prod.mk.inj (Option.some.inj hr)
      exact ⟨by simp, by simp, rfl, rfl⟩
    | spuriousFull i | spuriousEmpty i =>
      obtain ⟨c, -, he⟩ := Option.map_eq_some_iff.mp hr
      obtain ⟨rfl, rfl⟩ := Prod.mk.inj he
      exact ⟨by simp, by simp, rfl, rfl⟩
  · simp only [step, getRemainItems, hstop, if_true]


end

end BlockingQueue

open BlockingQueue

/-- In every state a run of steps reaches, the items are in order and no more than the bound, and a stopped queue is closed; and
where the run clears only queues whose producers are covered, no waiter is stranded. -/
theorem queue_keeps {τ α : Type} [DecidableEq τ] (maxSize : Nat) (calls : List (QueueCall τ α)) (q : BlockingQueue τ α)
    (hrun : BlockingQueue.run maxSize calls = some q) :
    q.Ordered ∧ q.queue.length ≤ maxSize ∧ q.Closed maxSize ∧
      (Run.Each (next maxSize) (ClearsCovered maxSize) calls {} → q.NoneStranded maxSize) := by
  have hstart : Safe maxSize ({} : BlockingQueue τ α) :=
    ⟨⟨rfl, rfl, rfl, fun _ hk => (nomatch hk)⟩, Nat.zero_le _⟩
  have hsafe : Safe maxSize q := by
    refine Run.invariant (P := Safe maxSize) (Q := fun _ _ => True) (fun q c q' h _ hstep => ?_) calls _ q hstart
      (Run.each_of_forall (fun _ _ => trivial) calls _) hrun
    obtain ⟨⟨_, r⟩, hr, rfl⟩ := Option.map_eq_some_iff.mp hstep
    exact safe_step h hr
  refine ⟨hsafe.ordered, hsafe.bounded, BlockingQueue.closed maxSize q, fun hclears => ?_⟩
  have hboth : Safe maxSize q ∧ Attended maxSize q := by
    refine Run.invariant (P := fun q => Safe maxSize q ∧ Attended maxSize q) (fun q c q' h hc hstep => ?_) calls _ q
      ⟨hstart, ?_⟩ hclears hrun
    · obtain ⟨⟨_, r⟩, hr, rfl⟩ := Option.map_eq_some_iff.mp hstep
      exact ⟨safe_step h.1 hr, attended_step h.1 h.2 hc hr⟩
    · exact ⟨fun _ => covers_of_awake rfl _, fun _ _ => covers_of_awake rfl _, fun _ _ => rfl, fun _ _ _ => rfl⟩
  exact hboth.2.noneStranded

namespace WaitingThreadsWitness

/-- One place: a first producer takes it, a second goes to sleep. -/
def waiting : List (QueueCall Nat Nat) := [.push 1 10 true 0, .push 2 20 true 0]

/-- A consumer takes the item, and wakes the producer, which goes on. -/
theorem queue_keeps_waiting :
    ∃ q, BlockingQueue.run 1 (waiting ++ [.pop 3 0, .pushOn 0 0]) = some q ∧ q.Ordered ∧ q.queue.length ≤ 1 ∧ q.Closed 1 ∧
      q.NoneStranded 1 := by
  refine ⟨_, rfl, ?_⟩
  obtain ⟨hordered, hbounded, hclosed, hstranded⟩ := queue_keeps 1 (waiting ++ [.pop 3 0, .pushOn 0 0]) _ rfl
  refine ⟨hordered, hbounded, hclosed, hstranded ?_⟩
  simp [Run.Each, waiting, ClearsCovered]

/-- Clearing the queue wakes nobody: the second producer sleeps before an empty queue. -/
theorem queue_keeps_false : ¬ ∀ (maxSize : Nat) (calls : List (QueueCall Nat Nat)) q, 1 ≤ maxSize →
    BlockingQueue.run maxSize calls = some q → q.NoneStranded maxSize := by
  intro hall
  obtain ⟨hfull, -⟩ := hall 1 (waiting ++ [.clear]) _ (Nat.le_refl 1) rfl
  exact absurd (hfull (by decide) (by decide)) (by decide)

end WaitingThreadsWitness

end Metadef
