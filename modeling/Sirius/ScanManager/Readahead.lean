import Sirius.Common.Run
import Sirius.Common.Table

/-!
# The readahead scan manager

Model of `src/scan_manager/gatekeeper.hpp` (lines 47–180) and of
`src/scan_manager/readahead_scan_manager.cpp`: the reports of the executor
(232–275), `settle_prefetch` and `on_prefetch_complete` (323–360), the worker
(362–505) and `arm_prefetching` (526–539).

Every critical section of the tickets' mutex is one step, and so is every
operation of the gatekeeper outside of it and every read of a stage or of the
stop token. What the code does not decide (which answer the shared budget or
`prepare_for_prefetching` gives, what throws, which thread moves) is in the action.

A slot is a number given to each `acquire_for` and `acquire_or_borrow` that
succeeds, and `released` is the list of the slots that `release` gave back; the
code has only their count. `ticketed` and `disposed` list the splits that had a
ticket, and those whose disposal was reported.
-/

namespace Sirius.ScanManager

open Sirius.Common

/-! ## The gatekeeper -/

structure Gatekeeper where
  budget : ℤ
  stopped : Bool := false
  available : ℤ := 0
  deriving DecidableEq, Repr

namespace Gatekeeper

def reload (g : Gatekeeper) : Gatekeeper :=
  { g with available := g.available + g.budget, stopped := false }

def stop (g : Gatekeeper) : Gatekeeper := { g with stopped := true }

/-- `acquire_for(timeout)`, when its wait ends: `none` when it returns false. -/
def acquireFor (g : Gatekeeper) : Option Gatekeeper :=
  if g.stopped then none
  else if g.available > 0 then some { g with available := g.available - 1 }
  else none

/-- `acquire_or_borrow()`: whether it had to borrow. -/
def acquireOrBorrow (g : Gatekeeper) : Bool × Gatekeeper :=
  (g.available ≤ 0, { g with available := g.available - 1 })

def release (g : Gatekeeper) : Gatekeeper := { g with available := g.available + 1 }

end Gatekeeper

/-! ## Stages, outcomes, tickets -/

/-- `scan_stage` (line 63 of `types.hpp`). -/
inductive ScanStage where
  | none | initialized | queued | preparing | reading | disposed
  deriving DecidableEq, Repr

/-- The value of the enumerator. -/
def ScanStage.rank : ScanStage → ℕ
  | none => 0
  | initialized => 1
  | queued => 2
  | preparing => 3
  | reading => 4
  | disposed => 5

/-- `prefetch_outcome_kind`. -/
inductive OutcomeKind where
  | skippedMemoryPressure | skippedFellBehind | waitForPrefetch | prefetched | nothingToIssue
  deriving DecidableEq, Repr

/-- `prefetch_outcome`. -/
structure PrefetchOutcome where
  issued : ℕ
  declined : ℕ
  declinedMemoryPressure : ℕ
  ok : Bool
  covered : Bool
  deriving DecidableEq, Repr

/-- `prepare_outcome`. -/
structure PrepareOutcome where
  prepared : ℕ
  failed : ℕ
  fellBehind : ℕ
  deriving DecidableEq, Repr

def PrepareOutcome.ready (prep : PrepareOutcome) : Bool :=
  prep.prepared > 0 && prep.failed == 0 && prep.fellBehind == 0

/-- `readahead_counters`. -/
structure Counters where
  outcomes : OutcomeKind → ℕ := fun _ => 0
  candidatesTaken : ℕ := 0
  droppedExpired : ℕ := 0
  droppedFellBehind : ℕ := 0
  operatorsDrained : ℕ := 0
  memoryRetries : ℕ := 0
  idlePolls : ℕ := 0
  gateTimeouts : ℕ := 0
  coldReadTickets : ℕ := 0
  borrowed : ℕ := 0

def Counters.record (c : Counters) (kind : OutcomeKind) : Counters :=
  { c with outcomes := Function.update c.outcomes kind (c.outcomes kind + 1) }

/-- The number of recorded outcomes. -/
def Counters.recorded (c : Counters) : ℕ :=
  c.outcomes .skippedMemoryPressure + c.outcomes .skippedFellBehind + c.outcomes .waitForPrefetch +
    c.outcomes .prefetched + c.outcomes .nothingToIssue

inductive Phase where
  | prefetching | demand | covered
  deriving DecidableEq, Repr

/-- `scan_ticket`. `id` is the identity of the shared pointer, and `slot` the slot
    that the ticket stands for. -/
structure ScanTicket where
  id : ℕ
  owner : Phase
  demandStarted : Bool
  slot : ℕ
  deriving DecidableEq, Repr

/-- A published ticket that is not settled, as the worker or a completion holds it. -/
structure Pending where
  split : ℕ
  slot : ℕ
  deriving DecidableEq, Repr

/-- A completion between `settle_prefetch` and `record`. `locked` is whether
    `split.lock()` found the split. -/
structure Settled where
  split : ℕ
  locked : Bool
  outcome : PrefetchOutcome
  deriving DecidableEq, Repr

/-- `prefetch_work_queue`. -/
structure WorkQueue where
  queue : List ℕ := []
  isFinished : Bool := false
  deriving DecidableEq, Repr

/-- Where the worker stands. `acquired` to `publishing` hold a slot; from
    `attempting` to `abandoned` the slot is transferred to the ticket. The flag
    `pressure` is `issue_result::memory_pressure`. -/
inductive Worker where
  | notStarted
  | idle
  | gate
  | acquired (slot : ℕ)
  | polling (slot : ℕ)
  | chosen (slot split : ℕ) (delayed : Bool)
  | sharing (slot split : ℕ) (delayed : Bool)
  | publishing (slot split : ℕ) (delayed : Bool)
  | attempting (id : ℕ) (ticket : Pending) (delayed evict : Bool)
  | preparing (id : ℕ) (ticket : Pending) (delayed evict : Bool)
  | prepared (id : ℕ) (ticket : Pending) (delayed : Bool)
  | abandoned (id : ℕ) (ticket : Pending) (delayed pressure : Bool)
  | returned (slot : Option ℕ) (split : ℕ) (delayed pressure : Bool)
  | stopped
  deriving DecidableEq, Repr

namespace Worker

/-- The slot that the worker holds. -/
def slot : Worker → Option ℕ
  | acquired slot | polling slot | chosen slot _ _ | sharing slot _ _ | publishing slot _ _ =>
    some slot
  | attempting _ p _ _ | preparing _ p _ _ | prepared _ p _ | abandoned _ p _ _ => some p.slot
  | returned slot _ _ _ => slot
  | notStarted | idle | gate | stopped => none

/-- The ticket that the worker has published and not settled. -/
def ticket : Worker → Option (ℕ × Pending)
  | attempting id p _ _ | preparing id p _ _ | prepared id p _ | abandoned id p _ _ => some (id, p)
  | _ => none

/-- The candidate in hand, until its outcome is recorded. -/
def candidate : Worker → Option ℕ
  | chosen _ split _ | sharing _ split _ | publishing _ split _ => some split
  | attempting _ p _ _ | preparing _ p _ _ | prepared _ p _ => some p.split
  | abandoned _ p _ pressure => if pressure then some p.split else none
  | returned _ split _ pressure => if pressure then some split else none
  | notStarted | idle | gate | acquired _ | polling _ | stopped => none

/-- The split that the worker keeps alive. -/
def task : Worker → Option ℕ
  | chosen _ split _ | sharing _ split _ | publishing _ split _ => some split
  | attempting _ p _ _ | preparing _ p _ _ | prepared _ p _ | abandoned _ p _ _ => some p.split
  | returned _ split _ _ => some split
  | notStarted | idle | gate | acquired _ | polling _ | stopped => none

end Worker

/-- The manager, with the splits that it has heard of. -/
structure Readahead where
  budget : ℕ
  gatekeeper : Gatekeeper
  prefetchingStarted : Bool := false
  stopRequested : Bool := false
  stage : ℕ → ScanStage := fun _ => .none
  alive : ℕ → Bool := fun _ => true
  tickets : Table ℕ ScanTicket := ∅
  queues : List WorkQueue
  cursor : ℕ := 0
  counters : Counters := {}
  worker : Worker := .notStarted
  retry : Option ℕ := none
  inFlight : Table ℕ Pending := ∅
  settled : List Settled := []
  nextTicket : ℕ := 0
  nextSlot : ℕ := 0
  released : List ℕ := []
  ticketed : List ℕ := []
  disposed : List ℕ := []

/-- `static_cast<int>(budget)`. -/
def toInt (n : ℕ) : ℤ := Int.bmod n (2 ^ 32)

namespace Readahead

/-- The manager as it is constructed, with a queue for each operator. -/
def fresh (budget operators : ℕ) : Readahead where
  budget := budget
  gatekeeper := { budget := toInt budget }
  queues := List.replicate operators {}

def hasFallenBehind (s : Readahead) (split : ℕ) : Bool :=
  ScanStage.preparing.rank ≤ (s.stage split).rank

def record (s : Readahead) (kind : OutcomeKind) : Readahead :=
  { s with counters := s.counters.record kind }

/-- `_gatekeeper.release()`, for `slot`. -/
def giveBack (s : Readahead) (slot : ℕ) : Readahead :=
  { s with gatekeeper := s.gatekeeper.release, released := slot :: s.released }

def setTicket (s : Readahead) (split : ℕ) (t : ScanTicket) : Readahead :=
  { s with tickets := s.tickets.insert split t }

def eraseTicket (s : Readahead) (split : ℕ) : Readahead :=
  { s with tickets := s.tickets.erase split }

/-! ## Reports of the executor -/

/-- A read that the readahead did not cover takes a ticket (lines 252–263). -/
def startDemand (s : Readahead) (split : ℕ) : Readahead :=
  let t : ScanTicket :=
    { id := s.nextTicket, owner := .demand, demandStarted := true, slot := s.nextSlot }
  { s.setTicket split t with
    gatekeeper := s.gatekeeper.acquireOrBorrow.2
    nextTicket := s.nextTicket + 1
    nextSlot := s.nextSlot + 1
    ticketed := split :: s.ticketed
    counters :=
      { s.counters with
        coldReadTickets := s.counters.coldReadTickets + 1
        borrowed := s.counters.borrowed + if s.gatekeeper.acquireOrBorrow.1 then 1 else 0 } }

/-- `update_scan_state(task, reading)`. With `throws`, the shared budget or an
    allocation throws before the ticket is in the map. -/
def reportReading (s : Readahead) (split : ℕ) (throws : Bool) : Readahead :=
  if s.budget = 0 then s
  else if s.stage split = .disposed then s
  else
    match s.tickets.lookup split with
    | some t => s.setTicket split { t with demandStarted := true }
    | none => if throws then s else s.startDemand split

/-- `update_scan_state(task, disposed)`. -/
def reportDisposed (s : Readahead) (split : ℕ) : Readahead :=
  let s' := { s with disposed := split :: s.disposed }
  if s.budget = 0 then s'
  else
    match s.tickets.lookup split with
    | none => s'
    | some t =>
      if t.owner = .demand then (s'.giveBack t.slot).eraseTicket split else s'.eraseTicket split

/-! ## Completions -/

/-- `settle_prefetch(split, ticket, covered)`. -/
def settlePrefetch (s : Readahead) (id : ℕ) (p : Pending) (covered : Bool) : Readahead :=
  match (s.tickets.lookup p.split).filter fun t => t.id = id with
  | none => s.giveBack p.slot
  | some t =>
    let retained := s.alive p.split && s.stage p.split != .disposed
    if retained && !covered && t.demandStarted then s.setTicket p.split { t with owner := .demand }
    else if retained && covered then
      (s.giveBack p.slot).setTicket p.split { t with owner := .covered }
    else (s.giveBack p.slot).eraseTicket p.split

/-- `classify_prefetch`. -/
def classifyPrefetch (allocationFailed splitAlive issuedIo : Bool) (stage : ScanStage) :
    OutcomeKind :=
  if allocationFailed then .skippedMemoryPressure
  else if !splitAlive then .skippedFellBehind
  else if !issuedIo then
    if ScanStage.preparing.rank ≤ stage.rank then .skippedFellBehind else .nothingToIssue
  else if stage = .reading then .waitForPrefetch
  else if ScanStage.preparing.rank ≤ stage.rank then .skippedFellBehind
  else .prefetched

/-- `on_prefetch_complete`, until the ticket is settled. -/
def complete (s : Readahead) (id : ℕ) (p : Pending) (out : PrefetchOutcome) : Readahead :=
  let s' := { s with
    inFlight := s.inFlight.erase id
    settled := { split := p.split, locked := s.alive p.split, outcome := out } :: s.settled }
  s'.settlePrefetch id p (out.ok && out.covered && out.declined == 0)

/-- The end of `on_prefetch_complete`, for completion `i` of `settled`. -/
def recordOutcome (s : Readahead) (i : ℕ) (c : Settled) : Readahead :=
  { s with settled := s.settled.eraseIdx i }.record
    (classifyPrefetch (c.outcome.declinedMemoryPressure > 0) c.locked (c.outcome.issued > 0)
      (if c.locked then s.stage c.split else .disposed))

/-! ## The worker -/

/-- What the lines after the loop do (line 505). -/
def exit (s : Readahead) : Readahead :=
  match s.retry with
  | some _ => { s.record .skippedMemoryPressure with worker := .stopped, retry := none }
  | none => { s with worker := .stopped }

/-- `get_next_candidate` of one queue: the rest of the queue and, unless it is
    empty, the candidate. -/
def nextCandidate (s : Readahead) : List ℕ → Counters → List ℕ × Option ℕ × Counters
  | [], c => ([], none, c)
  | split :: rest, c =>
    if s.alive split = false then
      s.nextCandidate rest { c with droppedExpired := c.droppedExpired + 1 }
    else if s.hasFallenBehind split then
      s.nextCandidate rest { c with droppedFellBehind := c.droppedFellBehind + 1 }
    else (rest, some split, c)

/-- No candidate: the slot goes back. -/
def noCandidate (s : Readahead) (slot : ℕ) : Readahead :=
  { s.giveBack slot with
    worker := .idle
    counters := { s.counters with idlePolls := s.counters.idlePolls + 1 } }

/-- One round of `get_next_prefetching_candidate`. -/
def poll (s : Readahead) (slot : ℕ) : Readahead :=
  if s.stopRequested then s.noCandidate slot
  else
    match s.queues[s.cursor]? with
    | none => s.noCandidate slot
    | some q =>
      let (rest, found, counters) := s.nextCandidate q.queue s.counters
      let s' := { s with
        queues := s.queues.set s.cursor { q with queue := rest }, counters := counters }
      match found with
      | some split =>
        { s' with
          worker := .chosen slot split false
          counters := { counters with candidatesTaken := counters.candidatesTaken + 1 } }
      | none =>
        if q.isFinished then
          { s' with
            cursor := s.cursor + 1
            counters := { counters with operatorsDrained := counters.operatorsDrained + 1 } }
        else s'.noCandidate slot

/-- `try_issue` returns without a ticket in the map. -/
def giveUp (s : Readahead) (kind : OutcomeKind) (slot split : ℕ) (delayed : Bool) : Readahead :=
  { s.record kind with worker := .returned (some slot) split delayed false }

/-- `attempt` returns `finished`. -/
def abandon (s : Readahead) (kind : OutcomeKind) (id : ℕ) (p : Pending) (delayed : Bool) :
    Readahead :=
  { s.record kind with worker := .abandoned id p delayed false }

/-- What the shared budget answers. -/
inductive SharedAnswer where
  | granted | refused | threw
  deriving DecidableEq, Repr

/-- What the environment answers to a step of the worker. -/
structure Answer where
  shared : SharedAnswer := .granted
  throws : Bool := false
  prepare : PrepareOutcome := { prepared := 0, failed := 0, fellBehind := 0 }
  deriving DecidableEq, Repr

/-- The ticket of the worker goes into the map (lines 390–395). -/
def publishTicket (s : Readahead) (slot split : ℕ) (delayed : Bool) : Readahead :=
  let t : ScanTicket :=
    { id := s.nextTicket, owner := .prefetching, demandStarted := false, slot := slot }
  { s.setTicket split t with
    nextTicket := s.nextTicket + 1
    ticketed := split :: s.ticketed
    worker := .attempting s.nextTicket { split := split, slot := slot } delayed delayed }

/-- What follows `prepare_for_prefetching` (lines 420–452). -/
def afterPrepare (s : Readahead) (id : ℕ) (p : Pending) (delayed evict : Bool)
    (prep : PrepareOutcome) : Readahead :=
  if prep.ready then { s with worker := .prepared id p delayed }
  else if prep.fellBehind > 0 ∨ s.hasFallenBehind p.split then
    s.abandon .skippedFellBehind id p delayed
  else if prep.failed = 0 then s.abandon .nothingToIssue id p delayed
  else if evict then { s with worker := .abandoned id p delayed true }
  else { s with worker := .attempting id p delayed true }

/-- The slot goes back unless it was transferred (line 494). -/
def releaseHeld (s : Readahead) : Option ℕ → Readahead
  | some slot => s.giveBack slot
  | none => s

/-- The end of a round of the loop (lines 493–503). -/
def finishRound (s : Readahead) (slot : Option ℕ) (split : ℕ) (delayed pressure : Bool) :
    Readahead :=
  if pressure then
    if delayed then { (s.releaseHeld slot).record .skippedMemoryPressure with worker := .idle }
    else { s.releaseHeld slot with retry := some split, worker := .idle }
  else { s.releaseHeld slot with worker := .idle }

/-- One step of `worker_loop`. -/
def workerStep (s : Readahead) (answer : Answer) : Option Readahead :=
  match s.worker with
  | .notStarted | .stopped => none
  | .idle =>
    if s.stopRequested ∨ (s.retry = none ∧ s.queues.length ≤ s.cursor) then some s.exit
    else some { s with worker := .gate }
  | .gate =>
    match s.gatekeeper.acquireFor with
    | none =>
      some { s with
        worker := .idle
        counters := { s.counters with gateTimeouts := s.counters.gateTimeouts + 1 } }
    | some g =>
      some { s with gatekeeper := g, nextSlot := s.nextSlot + 1, worker := .acquired s.nextSlot }
  | .acquired slot =>
    if s.stopRequested then some (s.giveBack slot).exit
    else
      match s.retry with
      | some split => some { s with retry := none, worker := .chosen slot split true }
      | none => some { s with worker := .polling slot }
  | .polling slot => some (s.poll slot)
  | .chosen slot split delayed =>
    if s.hasFallenBehind split then some (s.giveUp .skippedFellBehind slot split delayed)
    else some { s with worker := .sharing slot split delayed }
  | .sharing slot split delayed =>
    if answer.shared = .granted then some { s with worker := .publishing slot split delayed }
    else some (s.giveUp .skippedMemoryPressure slot split delayed)
  | .publishing slot split delayed =>
    if answer.throws then some (s.giveUp .skippedMemoryPressure slot split delayed)
    else if s.hasFallenBehind split ∨ (s.tickets.lookup split).isSome then
      some (s.giveUp .skippedFellBehind slot split delayed)
    else some (s.publishTicket slot split delayed)
  | .attempting id p delayed evict =>
    if s.stopRequested then some (s.abandon .skippedMemoryPressure id p delayed)
    else if s.hasFallenBehind p.split then some (s.abandon .skippedFellBehind id p delayed)
    else
      some { s with
        worker := .preparing id p delayed evict
        counters :=
          { s.counters with memoryRetries := s.counters.memoryRetries + if evict then 1 else 0 } }
  | .preparing id p delayed evict =>
    if answer.throws then some (s.abandon .skippedMemoryPressure id p delayed)
    else some (s.afterPrepare id p delayed evict answer.prepare)
  | .prepared id p delayed =>
    if answer.throws then some (s.abandon .skippedMemoryPressure id p delayed)
    else some { s with inFlight := s.inFlight.insert id p, worker := .idle }
  | .abandoned id p delayed pressure =>
    some { s.settlePrefetch id p false with worker := .returned none p.split delayed pressure }
  | .returned slot split delayed pressure => some (s.finishRound slot split delayed pressure)

/-! ## Steps -/

/-- `arm_prefetching`. -/
def armPrefetching (s : Readahead) : Readahead :=
  if s.prefetchingStarted then s
  else { s with prefetchingStarted := true, gatekeeper := s.gatekeeper.reload }

/-- One step of one of the threads. A report comes after its stage is published,
    and from a split that is alive; a split does not die while the worker has it. -/
inductive Action where
  | start
  | arm
  | requestStop
  | stopGate
  | register (operator split : ℕ)
  | close (operator : ℕ)
  | publishStage (split : ℕ) (stage : ScanStage)
  | expire (split : ℕ)
  | reading (split : ℕ) (throws : Bool)
  | dispose (split : ℕ)
  | work (answer : Answer)
  | complete (id : ℕ) (out : PrefetchOutcome)
  | recordOutcome (i : ℕ)
  deriving DecidableEq, Repr

def step (s : Readahead) : Action → Option Readahead
  | .start =>
    if s.budget = 0 ∨ s.worker ≠ .notStarted ∨ s.stopRequested then none
    else some { s with worker := .idle }
  | .arm => some s.armPrefetching
  | .requestStop => some { s with stopRequested := true }
  | .stopGate => some { s with gatekeeper := s.gatekeeper.stop }
  | .register op split =>
    match s.queues[op]? with
    | none => none
    | some q =>
      if q.isFinished then some s
      else some { s with queues := s.queues.set op { q with queue := q.queue ++ [split] } }
  | .close op =>
    match s.queues[op]? with
    | none => none
    | some q => some { s with queues := s.queues.set op { q with isFinished := true } }
  | .publishStage split stage =>
    if (s.stage split).rank < stage.rank then
      some { s with stage := Function.update s.stage split stage }
    else some s
  | .expire split =>
    if s.worker.task = some split ∨ s.retry = some split then none
    else some { s with alive := Function.update s.alive split false }
  | .reading split throws =>
    if s.alive split ∧ ScanStage.reading.rank ≤ (s.stage split).rank then
      some (s.reportReading split throws)
    else none
  | .dispose split =>
    if s.alive split ∧ s.stage split = .disposed then some (s.reportDisposed split) else none
  | .work answer => s.workerStep answer
  | .complete id out => (s.inFlight.lookup id).map fun p => s.complete id p out
  | .recordOutcome i => s.settled[i]?.map fun c => s.recordOutcome i c

end Readahead

end Sirius.ScanManager
