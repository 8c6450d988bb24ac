import Sirius.Common.Actors
import Sirius.Common.Run

/-!
# The scoped dispatcher

Model of `scoped_dispatcher` (`src/exec/scoped_dispatcher.hpp`) on a `static_thread_pool`
(`src/exec/thread_pool.hpp`). A step is a critical section of `mu_`, or what one thread does
between two of them: a read or write of the stop flag, a call of `pool_.schedule`, a task or its
destructor, the drain callback. `act` gives the steps of one thread from its place in the code,
`step` those of the system: a caller may enter at any time, and a pool thread that is free may
take any closure of the pool's queue.

A task is known by a number. It is *accepted* when its call reserved a slot or queued it.

* `act`, `step`: the dispatcher and the pool.
* `Quiet`: no task is running or pending, and every capture has been destroyed.
* `work`: the steps that are left to do when nobody calls any more.
-/

namespace Sirius.Exec.ScopedDispatcher

open Sirius.Common

/-- What the pool's queue holds: a task to run, or a worker that continues with pending ones. -/
inductive Closure where
  | task (t : ℕ)
  | next
  deriving DecidableEq, Repr

/-- Where a thread is. The worker places are those of `run`, with `can_yield`; a task is named
    where the thread holds its capture. `failed` marks a `request_stop` made by `submit` after
    `pool_.schedule` threw; its slot is still reserved. A `maxDiscard` of `none` is the default,
    more than a queue can hold. -/
inductive Phase where
  | claim (canYield : Bool)
  | invoke (t : ℕ) (canYield : Bool)
  | running (t : ℕ) (canYield : Bool)
  | destroy (t : ℕ) (canYield : Bool)
  | check (canYield : Bool)
  | handoff
  | enqueue (t : ℕ)
  | schedule (t : ℕ)
  | submit (t : ℕ)
  | unwind (t : ℕ)
  | stopBegin (maxDiscard : Option ℕ) (failed : Bool)
  | stopSet (maxDiscard : Option ℕ) (failed : Bool)
  | stopLoop (maxDiscard : Option ℕ) (count : ℕ) (failed : Bool)
  | discard (t : ℕ) (maxDiscard : Option ℕ) (count : ℕ) (failed : Bool)
  | releaseFailed
  | waitForAll
  | bind
  | notify (next : Phase)
  | done
  deriving DecidableEq, Repr

/-- The members of the dispatcher, the pool's queue and what has happened: the tasks that were
    accepted, that ran and whose captures were destroyed, whether a `request_stop` has begun or a
    submission failed, whether a callback was bound, and how often one was called. -/
structure Shared where
  maxInflight : ℕ
  pending : List ℕ := []
  inflight : ℕ := 0
  stop : Bool := false
  stopDrained : Bool := false
  pool : List Closure := []
  accepted : List ℕ := []
  ran : List ℕ := []
  destroyed : List ℕ := []
  stopBegun : Bool := false
  submitFailed : Bool := false
  bound : Bool := false
  notified : ℕ := 0
  deriving DecidableEq, Repr

/-! ## One thread -/

/-- `release_slot` (lines 237–248), before the thread goes on with `next`. -/
def releaseSlot (s : Shared) (next : Phase) : Shared × Phase :=
  let s := { s with inflight := s.inflight - 1 }
  if s.inflight = 0 ∧ s.pending = [] ∧ s.stop ∧ s.stopDrained then
    ({ s with stopDrained := false }, .notify next)
  else (s, next)

/-- What follows a `request_stop` that left the queue empty or not: `submit` goes on, a caller
    calls again until it returns `true`. -/
def afterStop (maxDiscard : Option ℕ) (failed empty : Bool) : Phase :=
  if failed then .releaseFailed else if empty then .done else .stopBegin maxDiscard false

/-- The next step of a thread. It has none when it waits, or is done. `ok` is the outcome of a
    call that may throw. -/
def act (s : Shared) (ok : Bool) : Phase → Option (Shared × Phase)
  | .claim canYield =>
    if s.stop then some (releaseSlot s .done)
    else match s.pending with
      | [] => some (releaseSlot s .done)
      | t :: rest => some ({ s with pending := rest }, .invoke t canYield)
  | .invoke t canYield =>
    if s.stop then some (s, .destroy t canYield)
    else some ({ s with ran := t :: s.ran }, .running t canYield)
  | .running t canYield => some (s, .destroy t canYield)
  | .destroy t canYield => some ({ s with destroyed := t :: s.destroyed }, .check canYield)
  | .check canYield =>
    if s.stop ∨ s.pending = [] then some (releaseSlot s .done)
    else if canYield then some (s, .handoff)
    else some (s, .claim false)
  | .handoff =>
    if ok then some ({ s with pool := s.pool ++ [Closure.next] }, .done) else some (s, .claim false)
  | .enqueue t =>
    if s.stop then some (s, .done)
    else if s.inflight < s.maxInflight then
      some ({ s with inflight := s.inflight + 1, accepted := t :: s.accepted }, .submit t)
    else if ok then
      some ({ s with pending := s.pending ++ [t], accepted := t :: s.accepted }, .done)
    else some (s, .done)
  | .schedule t =>
    if s.stop then some (s, .done)
    else if s.inflight < s.maxInflight then
      some ({ s with inflight := s.inflight + 1, accepted := t :: s.accepted }, .submit t)
    else none
  | .submit t =>
    if ok then some ({ s with pool := s.pool ++ [Closure.task t] }, .done)
    else some ({ s with submitFailed := true }, .unwind t)
  | .unwind t => some ({ s with destroyed := t :: s.destroyed }, .stopBegin none true)
  | .stopBegin maxDiscard failed =>
    some ({ s with inflight := s.inflight + 1, stopBegun := true }, .stopSet maxDiscard failed)
  | .stopSet maxDiscard failed => some ({ s with stop := true }, .stopLoop maxDiscard 0 failed)
  | .stopLoop maxDiscard count failed =>
    match s.pending with
    | [] => some (releaseSlot s (afterStop maxDiscard failed true))
    | t :: rest =>
      if maxDiscard = some count then some (releaseSlot s (afterStop maxDiscard failed false))
      else some ({ s with pending := rest }, .discard t maxDiscard count failed)
  | .discard t maxDiscard count failed =>
    some ({ s with destroyed := t :: s.destroyed }, .stopLoop maxDiscard (count + 1) failed)
  | .releaseFailed => some (releaseSlot s .done)
  | .waitForAll => if s.inflight = 0 ∧ s.pending = [] then some (s, .done) else none
  | .bind =>
    if s.stop ∨ s.stopDrained then some (s, .done)
    else some ({ s with stopDrained := true, bound := true }, .done)
  | .notify next => some ({ s with notified := s.notified + 1 }, next)
  | .done => none

/-! ## The system -/

/-- A pool thread that runs a closure of the dispatcher. -/
def Phase.onWorker : Phase → Bool
  | .claim _ | .invoke .. | .running .. | .destroy .. | .check _ | .handoff => true
  | _ => false

/-- The system, with the number of the next task. `settled` records that, after a stop, a state
    was reached with no task running or pending and every capture destroyed. -/
structure State where
  threads : ℕ
  shared : Shared
  actors : List Phase := []
  nextTask : ℕ := 0
  settled : Bool := false
  deriving DecidableEq, Repr

/-- The captures that a thread holds. Before it is accepted a task belongs to its caller. -/
def Phase.held : Phase → List ℕ
  | .invoke t _ | .running t _ | .destroy t _ | .submit t | .unwind t | .discard t .. => [t]
  | .notify next => next.held
  | _ => []

def Closure.held : Closure → List ℕ
  | .task t => [t]
  | .next => []

/-- The captures that the dispatcher, the pool and their threads hold. -/
def State.held (s : State) : List ℕ :=
  s.shared.pending ++ s.shared.pool.flatMap Closure.held ++ s.actors.flatMap Phase.held

def Phase.isRunning : Phase → Bool
  | .running .. => true
  | _ => false

/-- The tasks that are running. -/
def State.running (s : State) : ℕ := s.actors.countP Phase.isRunning

/-- No task is running or pending, and every capture has been destroyed. -/
def Quiet (s : State) : Prop := s.running = 0 ∧ s.shared.pending = [] ∧ s.held = []

instance (s : State) : Decidable (Quiet s) := inferInstanceAs (Decidable (_ ∧ _))

/-- The constructor: `max_concurrent_task` of zero is the number of threads. -/
def init (threads maxConcurrentTask : ℕ) : State where
  threads := threads
  shared := { maxInflight :=
    if maxConcurrentTask = 0 then threads else min maxConcurrentTask threads }

/-- The entry points. -/
inductive Call where
  | enqueue
  | schedule
  | requestStop (maxDiscard : Option ℕ)
  | waitForAll
  | setStopDrainCallback
  deriving DecidableEq, Repr

/-- Somebody calls, a free pool thread takes a closure, or a thread moves on. -/
inductive Action where
  | call (c : Call)
  | start (j : ℕ)
  | move (i : ℕ) (ok : Bool)
  deriving DecidableEq, Repr

/-- Where a call begins; an `enqueue` or `schedule` has wrapped its task. -/
def Call.phase (t : ℕ) : Call → Phase
  | .enqueue => .enqueue t
  | .schedule => .schedule t
  | .requestStop maxDiscard => .stopBegin maxDiscard false
  | .waitForAll => .waitForAll
  | .setStopDrainCallback => .bind

def Closure.phase : Closure → Phase
  | .task t => .invoke t true
  | .next => .claim true

/-- The step of an action, before it is observed. -/
def advance (s : State) : Action → Option State
  | .call c =>
    some { s with actors := s.actors ++ [c.phase s.nextTask], nextTask := s.nextTask + 1 }
  | .start j =>
    if s.actors.countP Phase.onWorker < s.threads then
      (s.shared.pool[j]?).map fun c =>
        { s with
          shared := { s.shared with pool := s.shared.pool.eraseIdx j }
          actors := s.actors ++ [c.phase] }
    else none
  | .move i ok =>
    (s.actors[i]?).bind fun a =>
      (act s.shared ok a).map fun r =>
        { s with shared := r.1, actors := s.actors.set i r.2 }

/-- It is remembered that the dispatcher was stopped and quiet. -/
def observe (s : State) : State :=
  { s with settled := s.settled || (s.shared.stop && decide (Quiet s)) }

/-- A step of one party, observed. -/
def step (s : State) (a : Action) : Option State := (advance s a).map observe

/-- The steps that need no new call. -/
def Action.internal : Action → Bool
  | .call _ => false
  | _ => true

/-- Nothing is left to do until somebody calls. -/
def Idle (s : State) : Prop := ∀ a : Action, a.internal → step s a = none

end Sirius.Exec.ScopedDispatcher
