import Metadef.Lib.CondVar
import Metadef.Lib.Run

/-!
# The blocking queue

The class `BlockingQueue` of `blocking_queue.h` as a machine whose steps are what one thread does while it holds the mutex, and
the wake-ups between. A wait gives the mutex up and goes to sleep in one step; a woken thread gets it again before it runs.
`Stop` sets its flag under the mutex and broadcasts on the two condition variables after it.
-/

namespace Metadef

/-- What the operations did so far. Each accepted push has a number, its place among them. -/
structure QueueHistory (α : Type) where
  accepted : List (Nat × α) := []
  popped : List (Nat × α) := []
  /-- The accepted pushes whose items are in the queue, and the numbers of those `Clear` dropped. -/
  inQueue : List (Nat × α) := []
  dropped : List Nat := []
  deriving DecidableEq, Repr

namespace QueueHistory

variable {α : Type}

def push (h : QueueHistory α) (item : α) : QueueHistory α :=
  { h with accepted := h.accepted ++ [(h.accepted.length, item)], inQueue := h.inQueue ++ [(h.accepted.length, item)] }

def pop (h : QueueHistory α) : QueueHistory α :=
  { h with popped := h.popped ++ h.inQueue.head?.toList, inQueue := h.inQueue.tail }

def clear (h : QueueHistory α) : QueueHistory α :=
  { h with dropped := h.dropped ++ h.inQueue.map Prod.fst, inQueue := [] }

end QueueHistory

/-- The queue with the threads in its operations. Producers wait on `full_cond_` with the item they push, consumers on
`empty_cond_`. A thread in `Stop` is before the first broadcast or before the second. -/
structure BlockingQueue (τ α : Type) where
  queue : List α := []
  emptyCond : CondVar τ := {}
  fullCond : CondVar (τ × α) := {}
  isStoped : Bool := false
  stopping : List τ := []
  halfStopped : List τ := []
  history : QueueHistory α := {}
  deriving DecidableEq, Repr

/-- What an operation returns. -/
inductive QueueResult (α : Type) where
  | pushed (ok : Bool)
  | popped (item : Option α)
  | items (l : List α)
  | full (b : Bool)
  | done
  deriving DecidableEq, Repr

/-- A step: a thread enters an operation, a woken thread goes on with its operation, or a wake-up without a reason. The
scheduler picks the sleeper a notification wakes and the woken thread that runs, by position. -/
inductive QueueCall (τ α : Type) where
  | push (t : τ) (item : α) (isWait : Bool) (wake : Nat)
  | pushOn (woken : Nat) (wake : Nat)
  | pop (t : τ) (wake : Nat)
  | popOn (woken : Nat) (wake : Nat)
  | stop (t : τ)
  | notifyFull (i : Nat)
  | notifyEmpty (i : Nat)
  | restart
  | getRemainItems
  | isFull
  | clear
  | spuriousFull (i : Nat)
  | spuriousEmpty (i : Nat)
  deriving DecidableEq, Repr

namespace BlockingQueue

variable {τ α : Type}

/-! ## Operations -/

/-- `Push` from where the mutex is held. -/
def push (maxSize : Nat) (t : τ) (item : α) (isWait : Bool) (wake : Nat) (q : BlockingQueue τ α) :
    Option (BlockingQueue τ α × Option (QueueResult α)) :=
  if maxSize ≤ q.queue.length ∧ q.isStoped = false then
    if isWait then some ({ q with fullCond := q.fullCond.wait (t, item) }, none) else some (q, some (.pushed false))
  else if q.isStoped then some (q, some (.pushed false))
  else
    match q.emptyCond.notifyOne wake with
    | none => none
    | some c =>
      some ({ q with queue := q.queue ++ [item], emptyCond := c, history := q.history.push item }, some (.pushed true))

/-- `Pop` from where the mutex is held. -/
def pop (t : τ) (wake : Nat) (q : BlockingQueue τ α) : Option (BlockingQueue τ α × Option (QueueResult α)) :=
  if q.isStoped then some (q, some (.popped none))
  else
    match q.queue with
    | [] => some ({ q with emptyCond := q.emptyCond.wait t }, none)
    | item :: rest =>
      match q.fullCond.notifyOne wake with
      | none => none
      | some c =>
        some ({ q with queue := rest, fullCond := c, history := q.history.pop }, some (.popped (some item)))

/-- `Stop` under the mutex. -/
def stop (t : τ) (q : BlockingQueue τ α) : BlockingQueue τ α := { q with isStoped := true, stopping := q.stopping ++ [t] }

def restart (q : BlockingQueue τ α) : BlockingQueue τ α := { q with isStoped := false }

def getRemainItems (q : BlockingQueue τ α) : List α := if q.isStoped then q.queue else []

def isFull (maxSize : Nat) (q : BlockingQueue τ α) : Bool := maxSize ≤ q.queue.length

def clear (q : BlockingQueue τ α) : BlockingQueue τ α := { q with queue := [], history := q.history.clear }

/-! ## Steps -/

/-- The thread is in no operation. -/
def Idle (q : BlockingQueue τ α) (t : τ) : Prop :=
  t ∉ q.emptyCond.asleep ++ q.emptyCond.woken ++ (q.fullCond.asleep ++ q.fullCond.woken).map Prod.fst ++ q.stopping ++ q.halfStopped

instance [DecidableEq τ] (q : BlockingQueue τ α) (t : τ) : Decidable (q.Idle t) := inferInstanceAs (Decidable (¬ _))

variable [DecidableEq τ]

/-- The queue after a step, with what was returned when an operation ended. -/
def step (maxSize : Nat) (q : BlockingQueue τ α) : QueueCall τ α → Option (BlockingQueue τ α × Option (QueueResult α))
  | .push t item isWait wake => if q.Idle t then q.push maxSize t item isWait wake else none
  | .pushOn k wake =>
    match q.fullCond.resume k with
    | none => none
    | some ((t, item), c) => { q with fullCond := c }.push maxSize t item true wake
  | .pop t wake => if q.Idle t then q.pop t wake else none
  | .popOn k wake =>
    match q.emptyCond.resume k with
    | none => none
    | some (t, c) => { q with emptyCond := c }.pop t wake
  | .stop t => if q.Idle t then some (q.stop t, none) else none
  | .notifyFull i =>
    match q.stopping[i]? with
    | none => none
    | some t =>
      some ({ q with stopping := q.stopping.eraseIdx i, halfStopped := q.halfStopped ++ [t]
                     fullCond := q.fullCond.notifyAll }, none)
  | .notifyEmpty i =>
    match q.halfStopped[i]? with
    | none => none
    | some _ =>
      some ({ q with halfStopped := q.halfStopped.eraseIdx i, emptyCond := q.emptyCond.notifyAll }, some .done)
  | .restart => some (q.restart, some .done)
  | .getRemainItems => some (q, some (.items q.getRemainItems))
  | .isFull => some (q, some (.full (q.isFull maxSize)))
  | .clear => some (q.clear, some .done)
  | .spuriousFull i => (q.fullCond.wake i).map fun c => ({ q with fullCond := c }, none)
  | .spuriousEmpty i => (q.emptyCond.wake i).map fun c => ({ q with emptyCond := c }, none)

/-- The queue after a step. -/
def next (maxSize : Nat) (q : BlockingQueue τ α) (c : QueueCall τ α) : Option (BlockingQueue τ α) :=
  (q.step maxSize c).map Prod.fst

/-- The queue a run of steps ends in, from the empty queue without threads. -/
def run (maxSize : Nat) (calls : List (QueueCall τ α)) : Option (BlockingQueue τ α) := Run.exec (next maxSize) calls {}

end BlockingQueue

end Metadef
