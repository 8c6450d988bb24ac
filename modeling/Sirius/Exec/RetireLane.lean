import Sirius.Common.Run

/-!
# The retire lane

Model of `retire_lane` (`src/exec/cuda_event_completion_poll.hpp`) on a CUDA stream. A step is one
access to an atomic, one critical section of a mutex without such an access inside, one call of
the CUDA API, one retire function or the destruction of its captures. The two mutexes and the
drainer flag are the threads that hold them:

* `submitter`: the holder of `submit_m_`, a submission or the first half of `quiesce`.
* `drainer`: the thread that set `draining_`.
* `callback`: the CUDA callback that is running. The stream runs one at a time, in order.
* `callers`: threads that have not claimed the drainer flag yet.

`pending_m_` is held from a splice of the queue to the store of `oldest_hint_`.

A CUDA status is a number, zero for success. The last fields of `Lane` record what happened.
-/

namespace Sirius.Exec.RetireLane

open Sirius.Common

/-- `no_pending_v`. -/
def noPending : ℕ := 2 ^ 64 - 1

def cudaErrorUnknown : ℕ := 999

/-- `pending_entry`, with the number of its function. -/
structure Entry where
  ticket : ℕ
  fn : ℕ
  deriving DecidableEq, Repr

/-- A retire function that was called, the status that it got, and whether by `fail_all`. -/
structure Invocation where
  entry : Entry
  status : ℕ
  forced : Bool
  deriving DecidableEq, Repr

/-- The holder of `submit_m_`: a submission that stages functions, the steps of `publish` on its
    ticket, a submission that has committed, and the two halves of `quiesce` under the mutex. -/
inductive SubmitPhase where
  | staging (staged : List ℕ)
  | splice (staged : List ℕ) (ticket : ℕ)
  | storeHint (ticket : ℕ)
  | install (ticket : ℕ)
  | storeError (ticket error : ℕ)
  | storeTicket (ticket error : ℕ)
  | synchronize (ticket error : ℕ)
  | recover (ticket error : ℕ)
  | committed
  | quiesceSync
  | quiesceRecover
  deriving DecidableEq, Repr

/-- Threads on the way to the drainer flag. A drain knows what had completed when it began. -/
inductive CallerPhase where
  | readCompleted (goal : ℕ)
  | readRecovered (goal completed : ℕ)
  | readHint (goal done : ℕ)
  | claim (goal done : ℕ)
  | claimQuiesce
  | claimFail (error : ℕ)
  | returned
  deriving DecidableEq, Repr

/-- The steps of `drain_owned`. The first two are those of `quiesce`, which reads what has
    completed after it claimed the flag. -/
inductive DrainPhase where
  | readCompleted
  | readRecovered (completed : ℕ)
  | take
  | storeHint (ready : List Entry)
  | readFailed (ready : List Entry)
  | readError (ready : List Entry) (bad : ℕ)
  | readInstall (ready : List Entry) (bad deviceError : ℕ)
  | invoke (called todo : List Entry) (bad deviceError installError : ℕ)
  | clear (ready : List Entry)
  | settle
  | release
  deriving DecidableEq, Repr

/-- The holder of the drainer flag. `force` is the error of `fail_all`. -/
structure Drainer where
  goal : ℕ
  done : ℕ
  force : Option ℕ
  phase : DrainPhase
  deriving DecidableEq, Repr

/-- `bump_ticket`, with the ticket that it has computed. -/
inductive CallbackPhase where
  | check (ticket status : ℕ)
  | storeError (ticket status : ℕ)
  | storeFailed (ticket status : ℕ)
  | storeCompleted (ticket status : ℕ)
  deriving DecidableEq, Repr

structure Lane where
  completed : ℕ := 0
  firstFailed : ℕ := noPending
  firstError : ℕ := 0
  submitted : ℕ := 0
  detached : Bool := false
  closed : Bool := false
  enqueueError : ℕ := 0
  failedEnqueueTicket : ℕ := noPending
  recovered : ℕ := 0
  pending : List Entry := []
  activeTicket : ℕ := noPending
  oldestHint : ℕ := noPending
  submitter : Option SubmitPhase := none
  drainer : Option Drainer := none
  callback : Option CallbackPhase := none
  callers : List CallerPhase := []
  /-- Callbacks that were installed, and whether delivery has stopped for good. -/
  installed : ℕ := 0
  stopped : Bool := false
  /-- The statuses of the callbacks that were delivered, in order. -/
  delivered : List ℕ := []
  /-- The last ticket that a successful synchronization covers. -/
  synced : ℕ := 0
  /-- The ticket whose callback could not be installed, with the error. -/
  installFailure : Option (ℕ × ℕ) := none
  nextFn : ℕ := 0
  committed : List Entry := []
  invoked : List Invocation := []
  destroyed : List Entry := []
  deriving DecidableEq, Repr

/-! ## Submissions -/

/-- The ticket of the front of the queue (lines 328 and 369). -/
def frontTicket (pending : List Entry) : ℕ := (pending.head?.map Entry.ticket).getD noPending

/-- `pending_m_` is held by the drainer. -/
def Lane.drainerHoldsQueue (s : Lane) : Bool :=
  match s.drainer with
  | some { phase := .storeHint _, .. } => true
  | _ => false

/-- `pending_m_` is held by the submitter. -/
def Lane.submitterHoldsQueue (s : Lane) : Bool :=
  match s.submitter with
  | some (.storeHint _) => true
  | _ => false

/-- A synchronization succeeds only after every installed callback was delivered. -/
def Lane.streamIdle (s : Lane) : Bool := s.callback.isNone && s.completed == s.installed

/-- `commit` of a submission (lines 356–366). A lane that ran out of tickets terminates. -/
def commit (s : Lane) (staged : List ℕ) : Option Lane :=
  if staged = [] then some { s with submitter := some .committed }
  else if s.submitted = noPending - 1 then none
  else some { s with
    submitted := s.submitted + 1
    submitter := some (.splice staged (s.submitted + 1)) }

/-- The next step of the holder of `submit_m_`, in `publish` (lines 366–388) or `quiesce`
    (lines 283–291). `code` is what the CUDA API answers. -/
def submitterStep (s : Lane) (code : ℕ) : SubmitPhase → Option Lane
  | .splice staged ticket =>
    if s.drainerHoldsQueue then none
    else
      let entries := staged.map fun fn => ⟨ticket, fn⟩
      some { s with
        pending := s.pending ++ entries
        committed := s.committed ++ entries
        submitter := some (.storeHint ticket) }
  | .storeHint ticket =>
    some { s with oldestHint := frontTicket s.pending, submitter := some (.install ticket) }
  | .install ticket =>
    if code = 0 then some { s with installed := s.installed + 1, submitter := some .committed }
    else some { s with
      closed := true
      installFailure := some (ticket, code)
      submitter := some (.storeError ticket code) }
  | .storeError ticket error =>
    some { s with enqueueError := error, submitter := some (.storeTicket ticket error) }
  | .storeTicket ticket error =>
    some { s with failedEnqueueTicket := ticket, submitter := some (.synchronize ticket error) }
  | .synchronize ticket error =>
    if code = 0 then
      if s.streamIdle then
        some { s with synced := s.submitted, submitter := some (.recover ticket error) }
      else none
    else some { s with submitter := some .committed }
  | .recover ticket _ => some { s with recovered := ticket, submitter := some .committed }
  | .quiesceSync =>
    if code = 0 then
      if s.streamIdle then some { s with synced := s.submitted, submitter := some .quiesceRecover }
      else none
    else some { s with submitter := none, callers := s.callers ++ [CallerPhase.claimQuiesce] }
  | .quiesceRecover =>
    some { s with
      recovered := if s.enqueueError ≠ 0 then s.submitted else s.recovered
      submitter := none
      callers := s.callers ++ [CallerPhase.claimQuiesce] }
  | .staging _ | .committed => none

/-! ## Drains -/

/-- The next step of a thread that has not claimed the drainer flag (lines 184–192, 271–273 and
    292). A claim that has to wait cannot move. -/
def callerStep (s : Lane) (i : ℕ) : CallerPhase → Option Lane
  | .readCompleted goal =>
    some { s with callers := s.callers.set i (.readRecovered goal s.completed) }
  | .readRecovered goal completed =>
    some { s with callers := s.callers.set i (.readHint goal (max completed s.recovered)) }
  | .readHint goal done =>
    if done < s.oldestHint then some { s with callers := s.callers.set i .returned }
    else some { s with callers := s.callers.set i (.claim goal done) }
  | .claim goal done =>
    some { s with
      callers := s.callers.set i .returned
      drainer := if s.drainer.isSome then s.drainer else some ⟨goal, done, none, .take⟩ }
  | .claimQuiesce =>
    if s.drainer.isSome then none
    else some { s with
      callers := s.callers.set i .returned
      drainer := some ⟨0, 0, none, .readCompleted⟩ }
  | .claimFail error =>
    if s.drainer.isSome then none
    else some { s with
      callers := s.callers.set i .returned
      drainer := some ⟨0, noPending, some error, .take⟩ }
  | .returned => none

/-- The status for a function (lines 334–338). -/
def statusFor (s : Lane) (d : Drainer) (e : Entry) (bad deviceError installError : ℕ) : ℕ :=
  match d.force with
  | some error => error
  | none =>
    if e.ticket = s.failedEnqueueTicket then installError
    else if bad ≤ e.ticket then deviceError else 0

/-- The next step of the holder of the drainer flag (lines 318–353). -/
def drainerStep (s : Lane) (d : Drainer) : Option Lane :=
  match d.phase with
  | .readCompleted => some { s with drainer := some { d with phase := .readRecovered s.completed } }
  | .readRecovered completed =>
    some { s with drainer := some { d with done := max completed s.recovered, phase := .take } }
  | .take =>
    if s.submitterHoldsQueue then none
    else
      let ready := s.pending.takeWhile fun e => e.ticket ≤ d.done
      some { s with
        pending := s.pending.dropWhile fun e => e.ticket ≤ d.done
        activeTicket := frontTicket ready
        drainer := some { d with phase := .storeHint ready } }
  | .storeHint ready =>
    some { s with
      oldestHint := frontTicket s.pending
      drainer := some { d with phase := .readFailed ready } }
  | .readFailed ready =>
    some { s with drainer := some { d with phase := .readError ready s.firstFailed } }
  | .readError ready bad =>
    some { s with drainer := some { d with phase := .readInstall ready bad s.firstError } }
  | .readInstall ready bad deviceError =>
    some { s with
      drainer := some { d with phase := .invoke [] ready bad deviceError s.enqueueError } }
  | .invoke called [] _ _ _ => some { s with drainer := some { d with phase := .clear called } }
  | .invoke called (e :: todo) bad deviceError installError =>
    some { s with
      invoked := s.invoked ++
        [⟨e, statusFor s d e bad deviceError installError, d.force.isSome⟩]
      drainer := some { d with
        phase := .invoke (called ++ [e]) todo bad deviceError installError } }
  | .clear [] => some { s with drainer := some { d with phase := .settle } }
  | .clear (e :: ready) =>
    some { s with
      destroyed := s.destroyed ++ [e]
      drainer := some { d with phase := .clear ready } }
  | .settle =>
    if s.submitterHoldsQueue then none
    else some { s with
      activeTicket := noPending
      drainer := some { d with phase := .release } }
  | .release => some { s with drainer := none }

/-! ## Callbacks -/

/-- The next step of `bump_ticket` (lines 67–78). -/
def callbackStep (s : Lane) : CallbackPhase → Lane
  | .check ticket status =>
    if status ≠ 0 ∧ s.firstFailed = noPending then
      { s with callback := some (.storeError ticket status) }
    else { s with callback := some (.storeCompleted ticket status) }
  | .storeError ticket status =>
    { s with firstError := status, callback := some (.storeFailed ticket status) }
  | .storeFailed ticket status =>
    { s with firstFailed := ticket, callback := some (.storeCompleted ticket status) }
  | .storeCompleted ticket status =>
    { s with completed := ticket, delivered := s.delivered ++ [status], callback := none }

/-! ## The system -/

inductive Action where
  | begin
  | stage
  | commit
  | submitter (code : ℕ)
  | endSubmission
  | detach
  | quiesce
  | failAll (error : ℕ)
  | stopCallbacks
  | drain
  | caller (i : ℕ)
  | drainer
  | deliver (status : ℕ)
  | callback
  deriving DecidableEq, Repr

/-- One step. `fail_all` is called after delivery has stopped for good, as its contract asks. -/
def step (s : Lane) : Action → Option Lane
  | .begin =>
    if s.submitter.isSome ∨ s.detached ∨ s.closed then none
    else some { s with submitter := some (.staging []) }
  | .stage =>
    match s.submitter with
    | some (.staging staged) =>
      some { s with submitter := some (.staging (staged ++ [s.nextFn])), nextFn := s.nextFn + 1 }
    | _ => none
  | .commit =>
    match s.submitter with
    | some (.staging staged) => commit s staged
    | _ => none
  | .submitter code => s.submitter.bind (submitterStep s code)
  | .endSubmission =>
    match s.submitter with
    | some .committed => some { s with submitter := none }
    | _ => none
  | .detach => if s.submitter.isSome then none else some { s with detached := true }
  | .quiesce =>
    if s.submitter.isSome then none
    else if s.detached then some { s with callers := s.callers ++ [CallerPhase.claimQuiesce] }
    else some { s with submitter := some .quiesceSync }
  | .failAll error =>
    if s.submitter.isSome ∨ !s.stopped then none
    else some { s with
      detached := true
      closed := true
      callers := s.callers ++ [CallerPhase.claimFail (if error = 0 then cudaErrorUnknown else error)] }
  | .stopCallbacks => if s.callback.isSome then none else some { s with stopped := true }
  | .drain =>
    some { s with callers := s.callers ++ [CallerPhase.readCompleted (max s.completed s.recovered)] }
  | .caller i => (s.callers[i]?).bind (callerStep s i)
  | .drainer => s.drainer.bind (drainerStep s)
  | .deliver status =>
    if s.callback.isSome ∨ s.stopped ∨ s.installed ≤ s.completed then none
    else some { s with callback := some (.check (s.completed + 1) status) }
  | .callback => s.callback.map (callbackStep s)

/-- `idle()`, when `pending_m_` is free. -/
def Lane.idle (s : Lane) : Bool := min s.activeTicket (frontTicket s.pending) = noPending

end Sirius.Exec.RetireLane
