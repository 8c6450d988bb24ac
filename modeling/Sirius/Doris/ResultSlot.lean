import Sirius.Common.Run
import Sirius.Doris.ResultEncoder

/-!
# Result slots

Model of `ResultSlot` (experimental/doris/src/result_store.rs:72-195): producers push batches, close
or fail, and any number of `fetch` polls take responses or park. Every critical section is one step;
so are `notify_waiters`, which a producer calls after it left the lock, and the creation of the
`Notified` of a poll, which happens before the poll looks at the slot. A `Notified` holds the number
of calls of `notify_waiters` before it; awaiting it returns after one more. Times of activity are
left out. `packet_seq` and `returned_rows` are `i64` in the source and natural numbers here: they
are the number of responses and of accepted rows (`SlotInv`), and agree in every run with fewer than
`2 ^ 63` of either.

* `step`: the steps of producers and polls.
* `SlotInv`, `PollInv`: what holds of the slot and its trace, and of the polls.
* `result_slot_contract`: the responses of every run.
-/

namespace Sirius.Doris.ResultSlot

open Sirius.Common Sirius.Doris.ResultEncoder

/-! ## The slot -/

/-- `MAX_QUEUED_RESULT_BYTES`. -/
def maxQueuedResultBytes : ℕ := 64 * 1024 * 1024

/-- `FetchOutcome`. -/
inductive FetchOutcome where
  | data (batch : ResultBatch) (packetSeq : ℕ)
  | eos (packetSeq returnedRows : ℕ)
  | failed (message : String)
  deriving DecidableEq, Repr

/-- `SlotState`, with the flag of cancellation. -/
structure Slot where
  batches : List ResultBatch := []
  queuedBytes : ℕ := 0
  closed : Option (Except String ℕ) := none
  packetSeq : ℕ := 0
  returnedRows : ℕ := 0
  cancelled : Bool := false

/-- The bytes of the rows of a batch. -/
def batchBytes (batch : ResultBatch) : ℕ := (batch.rows.map List.length).sum

/-- There is a response for a poll. -/
def Slot.available (slot : Slot) : Bool := slot.closed.isSome || !slot.batches.isEmpty

/-- A `fetch` poll: before it created its `Notified`, with it, awaiting it, and returned. -/
inductive Poll where
  | entering
  | created (epoch : ℕ)
  | parked (epoch : ℕ)
  | returned
  deriving DecidableEq, Repr

/-- What happened to the slot. -/
inductive Event where
  | accepted (batch : ResultBatch)
  | rejected (message : String)
  | closed
  | failed (message : String)
  | responded (outcome : FetchOutcome)
  deriving DecidableEq, Repr

/-- The slot, the number of calls of `notify_waiters`, the producers that left the lock and have not
    notified, the cancellations that set the flag and have not failed the slot, the polls, and the
    trace, latest event first. -/
structure State where
  slot : Slot := {}
  epoch : ℕ := 0
  notifying : ℕ := 0
  cancelling : ℕ := 0
  polls : List Poll := []
  trace : List Event := []

inductive Act where
  | push (batch : ResultBatch)
  | close
  | fail (message : String)
  | cancel
  | cancelFail
  | notify
  | fetch
  | create (i : ℕ)
  | look (i : ℕ)
  | wake (i : ℕ)
  | drop (i : ℕ)
  deriving DecidableEq, Repr

/-- A critical section of a producer, which will notify. -/
def State.produced (s : State) (slot : Slot) (event : Event) : State :=
  { s with slot := slot, notifying := s.notifying + 1, trace := event :: s.trace }

/-- `push` (lines 96-116). -/
def State.push (s : State) (batch : ResultBatch) : State :=
  if s.slot.cancelled then { s with trace := .rejected "query was cancelled" :: s.trace }
  else if maxQueuedResultBytes < s.slot.queuedBytes + batchBytes batch then
    { s with trace :=
      .rejected s!"queued result exceeds the {maxQueuedResultBytes}-byte limit" :: s.trace }
  else s.produced { s.slot with
    batches := s.slot.batches ++ [batch]
    queuedBytes := s.slot.queuedBytes + batchBytes batch
    returnedRows := s.slot.returnedRows + batch.rows.length } (.accepted batch)

/-- `close` (lines 119-128). -/
def State.close (s : State) : State :=
  s.produced { s.slot with closed := s.slot.closed.or (some (.ok s.slot.returnedRows)) } .closed

/-- `fail` (lines 131-140). -/
def State.fail (s : State) (message : String) : State :=
  s.produced { s.slot with batches := [], queuedBytes := 0, closed := some (.error message) }
    (.failed message)

/-- A poll returns its response. -/
def State.respond (s : State) (i : ℕ) (slot : Slot) (outcome : FetchOutcome) : State :=
  { s with slot := slot, polls := s.polls.set i .returned, trace := .responded outcome :: s.trace }

/-- The critical section of `fetch` (lines 151-173). -/
def State.look (s : State) (i epoch : ℕ) : State :=
  match s.slot.closed, s.slot.batches with
  | some (.error message), _ => s.respond i s.slot (.failed message)
  | _, batch :: rest =>
    s.respond i { s.slot with
        batches := rest
        queuedBytes := s.slot.queuedBytes - batchBytes batch
        packetSeq := s.slot.packetSeq + 1 }
      (.data { batch with packetSeq := s.slot.packetSeq } s.slot.packetSeq)
  | some (.ok returnedRows), [] =>
    s.respond i { s.slot with packetSeq := s.slot.packetSeq + 1 }
      (.eos s.slot.packetSeq returnedRows)
  | none, [] => { s with polls := s.polls.set i (.parked epoch) }

def step (s : State) : Act → Option State
  | .push batch => some (s.push batch)
  | .close => some s.close
  | .fail message => some (s.fail message)
  | .cancel => some { s with
      slot := { s.slot with cancelled := true }, cancelling := s.cancelling + 1 }
  | .cancelFail =>
    if s.cancelling = 0 then none
    else some ({ s with cancelling := s.cancelling - 1 }.fail "query was cancelled")
  | .notify =>
    if s.notifying = 0 then none
    else some { s with notifying := s.notifying - 1, epoch := s.epoch + 1 }
  | .fetch => some { s with polls := s.polls ++ [Poll.entering] }
  | .create i =>
    if s.polls[i]? = some .entering then
      some { s with polls := s.polls.set i (.created s.epoch) }
    else none
  | .look i =>
    match s.polls[i]? with
    | some (.created epoch) => some (s.look i epoch)
    | _ => none
  | .wake i =>
    match s.polls[i]? with
    | some (.parked epoch) =>
      if epoch < s.epoch then some { s with polls := s.polls.set i .entering } else none
    | _ => none
  | .drop i =>
    match s.polls[i]? with
    | some (.parked _) => some { s with polls := s.polls.set i .returned }
    | _ => none

/-! ## Traces -/

/-- The batches that were accepted, in the order of the pushes. -/
def acceptedBatches : List Event → List ResultBatch
  | [] => []
  | .accepted batch :: tr => acceptedBatches tr ++ [batch]
  | _ :: tr => acceptedBatches tr

/-- The batches that were delivered, in order. -/
def deliveredBatches : List Event → List ResultBatch
  | [] => []
  | .responded (.data batch _) :: tr => deliveredBatches tr ++ [batch]
  | _ :: tr => deliveredBatches tr

/-- The sequence numbers of the responses that are not failures, in order. -/
def packetNumbers : List Event → List ℕ
  | [] => []
  | .responded (.data _ packetSeq) :: tr => packetNumbers tr ++ [packetSeq]
  | .responded (.eos packetSeq _) :: tr => packetNumbers tr ++ [packetSeq]
  | _ :: tr => packetNumbers tr

/-- The rows of batches. -/
def rowCount (batches : List ResultBatch) : ℕ := (batches.map fun batch => batch.rows.length).sum

/-- Batches as they are delivered: each with its place as sequence number. -/
def numbered (batches : List ResultBatch) : List ResultBatch :=
  batches.mapIdx fun i batch => { batch with packetSeq := i }

/-- Nothing is pushed after `close`. -/
def ProducerOk (s : State) : Act → Prop
  | .push _ => Event.closed ∉ s.trace
  | _ => True

instance (s : State) (a : Act) : Decidable (ProducerOk s a) := by
  cases a <;> unfold ProducerOk <;> infer_instance

/-- An end of stream comes after a close and after every accepted batch, and reports their rows. -/
def EosOk (tr : List Event) : Prop :=
  ∀ later packetSeq rows earlier, tr = later ++ .responded (.eos packetSeq rows) :: earlier →
    Event.closed ∈ earlier ∧ (deliveredBatches earlier).length = (acceptedBatches tr).length ∧
      rows = rowCount (acceptedBatches tr)

/-- After a failure every response is a failure. -/
def FailOk (tr : List Event) : Prop :=
  ∀ later message earlier, tr = later ++ .failed message :: earlier →
    ∀ outcome, Event.responded outcome ∈ later → ∃ message', outcome = .failed message'

section Traces

variable {tr : List Event} {event : Event}

/-- An event that is no end of stream and accepts nothing. -/
theorem EosOk.cons (h : EosOk tr) (hevent : ∀ n rows, event ≠ .responded (.eos n rows))
    (haccepted : acceptedBatches (event :: tr) = acceptedBatches tr) : EosOk (event :: tr) := by
  intro later n rows earlier heq
  rw [haccepted]
  rcases List.cons_eq_append_iff.mp heq with ⟨-, hhead⟩ | ⟨later', -, hrest⟩
  · exact absurd (List.cons.inj hhead).1.symm (hevent n rows)
  · exact h later' n rows earlier hrest

/-- There is no end of stream before a close. -/
theorem EosOk.accept (h : EosOk tr) (hclosed : Event.closed ∉ tr) (batch : ResultBatch) :
    EosOk (.accepted batch :: tr) := by
  intro later n rows earlier heq
  rcases List.cons_eq_append_iff.mp heq with ⟨-, hhead⟩ | ⟨later', -, hrest⟩
  · cases (List.cons.inj hhead).1
  · have hmem := (h later' n rows earlier hrest).1
    rw [hrest] at hclosed
    exact absurd (List.mem_append_right _ (List.mem_cons_of_mem _ hmem)) hclosed

theorem EosOk.eos (h : EosOk tr) {n rows : ℕ} (hclosed : Event.closed ∈ tr)
    (hall : (deliveredBatches tr).length = (acceptedBatches tr).length)
    (hrows : rows = rowCount (acceptedBatches tr)) : EosOk (.responded (.eos n rows) :: tr) := by
  intro later n' rows' earlier heq
  rcases List.cons_eq_append_iff.mp heq with ⟨-, hhead⟩ | ⟨later', -, hrest⟩
  · obtain ⟨hevent, rfl⟩ := List.cons.inj hhead
    cases hevent
    exact ⟨hclosed, hall, hrows⟩
  · exact h later' n' rows' earlier hrest

theorem FailOk.cons (h : FailOk tr)
    (hevent : ∀ outcome, event = .responded outcome →
      (∃ message, outcome = .failed message) ∨ ∀ message, Event.failed message ∉ tr) :
    FailOk (event :: tr) := by
  intro later message earlier heq outcome houtcome
  rcases List.cons_eq_append_iff.mp heq with ⟨rfl, -⟩ | ⟨later', rfl, hrest⟩
  · cases houtcome
  · rcases List.mem_cons.mp houtcome with hhead | htail
    · rcases hevent outcome hhead.symm with hfailed | hnone
      · exact hfailed
      · have hmem : Event.failed message ∈ tr := by
          rw [hrest]
          exact List.mem_append_right _ List.mem_cons_self
        exact absurd hmem (hnone message)
    · exact h later' message earlier hrest outcome htail

theorem numbered_take_succ {batches : List ResultBatch} {k : ℕ} {batch : ResultBatch}
    (h : batches[k]? = some batch) :
    numbered (batches.take (k + 1))
      = numbered (batches.take k) ++ [{ batch with packetSeq := (k : ℤ) }] := by
  obtain ⟨hk, rfl⟩ := List.getElem?_eq_some_iff.mp h
  rw [numbered, numbered, List.take_succ_eq_append_getElem hk, List.mapIdx_append]
  simp [Nat.min_eq_left hk.le]

end Traces

/-! ## The slot along a run -/

/-- The slot was failed. -/
def Slot.failing (slot : Slot) : Prop := ∃ message, slot.closed = some (.error message)

/-- The slot as a function of its trace. -/
structure SlotInv (slot : Slot) (tr : List Event) : Prop where
  bytes : slot.queuedBytes = (slot.batches.map batchBytes).sum
  limit : slot.queuedBytes ≤ maxQueuedResultBytes
  rows : slot.returnedRows = rowCount (acceptedBatches tr)
  numbers : packetNumbers tr = List.range slot.packetSeq
  count : (deliveredBatches tr).length ≤ (acceptedBatches tr).length
  delivered : deliveredBatches tr
    = numbered ((acceptedBatches tr).take (deliveredBatches tr).length)
  queue : ¬slot.failing → slot.batches = (acceptedBatches tr).drop (deliveredBatches tr).length
  /-- Before the end of the stream every response was a batch. -/
  seq : ¬slot.failing → slot.packetSeq = (deliveredBatches tr).length ∨
    (slot.closed.isSome ∧ slot.batches = [])
  total : ∀ n, slot.closed = some (.ok n) → Event.closed ∈ tr ∧ n = rowCount (acceptedBatches tr)
  failing : (∃ message, Event.failed message ∈ tr) → slot.failing
  eos : EosOk tr
  fail : FailOk tr

section Slot

variable {slot : Slot} {tr : List Event}

theorem slotInv_start : SlotInv {} [] where
  bytes := rfl
  limit := Nat.zero_le _
  rows := rfl
  numbers := rfl
  count := le_rfl
  delivered := rfl
  queue := fun _ => rfl
  seq := fun _ => .inl rfl
  total := fun _ h => by cases h
  failing := fun ⟨_, h⟩ => by cases h
  eos := fun later _ _ _ h => absurd h (by simp)
  fail := fun later _ _ h => absurd h (by simp)

/-- A push that is refused. -/
theorem SlotInv.reject (h : SlotInv slot tr) (message : String) :
    SlotInv slot (.rejected message :: tr) := { h with
  total := fun n hn => (h.total n hn).imp_left (List.mem_cons_of_mem _)
  failing := fun ⟨m, hm⟩ => h.failing ⟨m, by simpa using hm⟩
  eos := h.eos.cons (fun _ _ => by simp) rfl
  fail := h.fail.cons fun _ hevent => by cases hevent }

theorem rowCount_concat (batches : List ResultBatch) (batch : ResultBatch) :
    rowCount (batches ++ [batch]) = rowCount batches + batch.rows.length := by
  simp [rowCount]

theorem SlotInv.accept (h : SlotInv slot tr) {batch : ResultBatch} (hclosed : Event.closed ∉ tr)
    (hlimit : slot.queuedBytes + batchBytes batch ≤ maxQueuedResultBytes) :
    SlotInv { slot with
        batches := slot.batches ++ [batch]
        queuedBytes := slot.queuedBytes + batchBytes batch
        returnedRows := slot.returnedRows + batch.rows.length } (.accepted batch :: tr) := { h with
  bytes := by simp [h.bytes]
  limit := hlimit
  rows := by
    show slot.returnedRows + batch.rows.length = rowCount (acceptedBatches tr ++ [batch])
    rw [rowCount_concat, h.rows]
  count := by
    have hcount := h.count
    show (deliveredBatches tr).length ≤ (acceptedBatches tr ++ [batch]).length
    rw [List.length_append]
    omega
  delivered := by
    show deliveredBatches tr
      = numbered ((acceptedBatches tr ++ [batch]).take (deliveredBatches tr).length)
    rw [List.take_append_of_le_length h.count]
    exact h.delivered
  queue := by
    intro hlive
    show slot.batches ++ [batch]
      = (acceptedBatches tr ++ [batch]).drop (deliveredBatches tr).length
    rw [List.drop_append_of_le_length h.count, ← h.queue hlive]
  seq := by
    intro hlive
    rcases h.seq hlive with hseq | ⟨hsome, -⟩
    · exact .inl hseq
    · -- closed and not failed would be a close
      obtain ⟨result, hresult⟩ := Option.isSome_iff_exists.mp hsome
      cases result with
      | error message => exact absurd ⟨message, hresult⟩ hlive
      | ok n => exact absurd (h.total n hresult).1 hclosed
  total := fun n hn => absurd (h.total n hn).1 hclosed
  failing := fun ⟨m, hm⟩ => h.failing ⟨m, by simpa using hm⟩
  eos := h.eos.accept hclosed batch
  fail := h.fail.cons fun _ hevent => by cases hevent }

theorem SlotInv.close (h : SlotInv slot tr) :
    SlotInv { slot with closed := slot.closed.or (some (.ok slot.returnedRows)) }
      (.closed :: tr) := { h with
  queue := by
    rintro hlive
    exact h.queue fun ⟨m, hm⟩ => hlive ⟨m, by simp [hm]⟩
  seq := by
    intro hlive
    rcases h.seq (fun ⟨m, hm⟩ => hlive ⟨m, by simp [hm]⟩) with hseq | ⟨-, hnil⟩
    · exact .inl hseq
    · exact .inr ⟨by simp, hnil⟩
  total := by
    intro n hn
    refine ⟨List.mem_cons_self, ?_⟩
    show n = rowCount (acceptedBatches tr)
    rcases Option.or_eq_some_iff.mp hn with hold | ⟨-, hnew⟩
    · exact (h.total n hold).2
    · rw [← h.rows]
      exact (Except.ok.inj (Option.some.inj hnew)).symm
  failing := by
    rintro ⟨m, hm⟩
    obtain ⟨m', hm'⟩ := h.failing ⟨m, by simpa using hm⟩
    exact ⟨m', by simp [hm']⟩
  eos := h.eos.cons (fun _ _ => by simp) rfl
  fail := h.fail.cons fun _ hevent => by cases hevent }

theorem SlotInv.failed (h : SlotInv slot tr) (message : String) :
    SlotInv { slot with batches := [], queuedBytes := 0, closed := some (.error message) }
      (.failed message :: tr) := { h with
  bytes := rfl
  limit := Nat.zero_le _
  queue := fun hlive => absurd ⟨message, rfl⟩ hlive
  seq := fun hlive => absurd ⟨message, rfl⟩ hlive
  total := fun n hn => by cases hn
  failing := fun _ => ⟨message, rfl⟩
  eos := h.eos.cons (fun _ _ => by simp) rfl
  fail := h.fail.cons fun _ hevent => by cases hevent }

/-- The response of a failed slot. -/
theorem SlotInv.respondFailed (h : SlotInv slot tr) (message : String) :
    SlotInv slot (.responded (.failed message) :: tr) := { h with
  total := fun n hn => (h.total n hn).imp_left (List.mem_cons_of_mem _)
  failing := fun ⟨m, hm⟩ => h.failing ⟨m, by simpa using hm⟩
  eos := h.eos.cons (fun _ _ => by simp) rfl
  fail := h.fail.cons fun outcome hevent => .inl ⟨message, by cases hevent; rfl⟩ }

/-- The first queued batch is delivered. -/
theorem SlotInv.respondData (h : SlotInv slot tr) {batch : ResultBatch} {rest : List ResultBatch}
    (hlive : ¬slot.failing) (hbatches : slot.batches = batch :: rest) :
    SlotInv { slot with
        batches := rest
        queuedBytes := slot.queuedBytes - batchBytes batch
        packetSeq := slot.packetSeq + 1 }
      (.responded (.data { batch with packetSeq := slot.packetSeq } slot.packetSeq) :: tr) := by
  have hdrop : batch :: rest = (acceptedBatches tr).drop (deliveredBatches tr).length :=
    hbatches.symm.trans (h.queue hlive)
  have hget : (acceptedBatches tr)[(deliveredBatches tr).length]? = some batch := by
    have hhead := congrArg (fun l : List ResultBatch => l[0]?) hdrop
    simpa using hhead.symm
  have hlt : (deliveredBatches tr).length < (acceptedBatches tr).length :=
    (List.getElem?_eq_some_iff.mp hget).1
  have hrest : rest = (acceptedBatches tr).drop ((deliveredBatches tr).length + 1) := by
    have htail := congrArg List.tail hdrop
    rwa [List.tail_cons, List.tail_drop] at htail
  have hseq : slot.packetSeq = (deliveredBatches tr).length := by
    rcases h.seq hlive with hseq | ⟨-, hnil⟩
    · exact hseq
    · rw [hbatches] at hnil
      cases hnil
  have hbytes : slot.queuedBytes = batchBytes batch + (rest.map batchBytes).sum := by
    rw [h.bytes, hbatches, List.map_cons, List.sum_cons]
  have hlimit := h.limit
  have hlength : ∀ b : ResultBatch, (deliveredBatches tr ++ [b]).length
      = (deliveredBatches tr).length + 1 := fun b => List.length_append
  exact { h with
    bytes := by
      show slot.queuedBytes - batchBytes batch = (rest.map batchBytes).sum
      omega
    limit := by
      show slot.queuedBytes - batchBytes batch ≤ maxQueuedResultBytes
      omega
    numbers := by
      show packetNumbers tr ++ [slot.packetSeq] = List.range (slot.packetSeq + 1)
      rw [h.numbers, List.range_succ]
    count := by
      show (deliveredBatches tr ++ [_]).length ≤ (acceptedBatches tr).length
      rw [hlength]
      exact hlt
    delivered := by
      show deliveredBatches tr ++ [_]
        = numbered ((acceptedBatches tr).take (deliveredBatches tr ++ [_]).length)
      rw [hlength, numbered_take_succ hget, ← h.delivered, hseq]
    queue := by
      intro _
      show rest = (acceptedBatches tr).drop (deliveredBatches tr ++ [_]).length
      rw [hlength]
      exact hrest
    seq := by
      intro _
      refine .inl ?_
      show slot.packetSeq + 1 = (deliveredBatches tr ++ [_]).length
      rw [hlength, hseq]
    total := fun n hn => (h.total n hn).imp_left (List.mem_cons_of_mem _)
    failing := fun ⟨m, hm⟩ => h.failing ⟨m, by simpa using hm⟩
    eos := h.eos.cons (fun _ _ => by simp) rfl
    fail := h.fail.cons fun _ _ => .inr fun m hm => hlive (h.failing ⟨m, hm⟩) }

/-- The end of the stream is reported, once or again. -/
theorem SlotInv.respondEos (h : SlotInv slot tr) {n : ℕ} (hclosed : slot.closed = some (.ok n))
    (hnil : slot.batches = []) :
    SlotInv { slot with packetSeq := slot.packetSeq + 1 }
      (.responded (.eos slot.packetSeq n) :: tr) := by
  have hlive : ¬slot.failing := by
    rintro ⟨m, hm⟩
    rw [hclosed] at hm
    cases hm
  have hall : (deliveredBatches tr).length = (acceptedBatches tr).length := by
    have hdrop := h.queue hlive
    rw [hnil] at hdrop
    exact le_antisymm h.count (List.drop_eq_nil_iff.mp hdrop.symm)
  obtain ⟨hmem, hrows⟩ := h.total n hclosed
  exact { h with
    numbers := by
      show packetNumbers tr ++ [slot.packetSeq] = List.range (slot.packetSeq + 1)
      rw [h.numbers, List.range_succ]
    seq := fun _ => .inr ⟨by simp [hclosed], hnil⟩
    total := fun n hn => (h.total n hn).imp_left (List.mem_cons_of_mem _)
    failing := fun ⟨m, hm⟩ => h.failing ⟨m, by simpa using hm⟩
    eos := h.eos.eos hmem hall hrows
    fail := h.fail.cons fun _ _ => .inr fun m hm => hlive (h.failing ⟨m, hm⟩) }

theorem SlotInv.cancel (h : SlotInv slot tr) : SlotInv { slot with cancelled := true } tr :=
  { h with }

end Slot

/-! ## The polls along a run -/

/-- What a poll knows: the `Notified` of a poll that found nothing was created before every producer
    that made a response available notified. -/
def PollOk (s : State) : Poll → Prop
  | .created epoch => epoch ≤ s.epoch
  | .parked epoch => epoch ≤ s.epoch ∧ (epoch = s.epoch → s.slot.available → 0 < s.notifying)
  | _ => True

def PollInv (s : State) : Prop := ∀ poll ∈ s.polls, PollOk s poll

section Polls

variable {s s' : State}

/-- A step of a poll: the others know no more and no less. -/
theorem PollInv.set (h : PollInv s) {i : ℕ} {poll : Poll} (hpoll : PollOk s poll) :
    PollInv { s with polls := s.polls.set i poll } := by
  intro other hother
  rcases List.mem_or_eq_of_mem_set hother with hmem | rfl
  · exact h other hmem
  · exact hpoll

/-- A producer that will notify may make a response available. -/
theorem PollInv.produced (h : PollInv s) (slot : Slot) (event : Event) :
    PollInv (s.produced slot event) := by
  intro poll hpoll
  have hold := h poll hpoll
  cases poll with
  | entering => trivial
  | created epoch => exact hold
  | parked epoch => exact ⟨hold.1, fun _ _ => Nat.succ_pos _⟩
  | returned => trivial

/-- A response makes nothing available. -/
theorem PollInv.respond (h : PollInv s) (i : ℕ) {slot : Slot} (outcome : FetchOutcome)
    (havailable : slot.available → s.slot.available) : PollInv (s.respond i slot outcome) := by
  intro poll hpoll
  rcases List.mem_or_eq_of_mem_set hpoll with hmem | rfl
  · have hold := h poll hmem
    cases poll with
    | entering => trivial
    | created epoch => exact hold
    | parked epoch => exact ⟨hold.1, fun heq hnew => hold.2 heq (havailable hnew)⟩
    | returned => trivial
  · trivial

/-- `notify_waiters` wakes every parked poll. -/
theorem notify_wakes (h : PollInv s) (hs : step s .notify = some s') :
    ∀ epoch, Poll.parked epoch ∈ s'.polls → epoch < s'.epoch := by
  intro epoch hmem
  obtain ⟨-, heq⟩ := Option.ite_none_left_eq_some.mp hs
  obtain rfl := Option.some.inj heq
  exact Nat.lt_succ_of_le (h _ hmem).1

theorem PollInv.notify (h : PollInv s) (hs : step s .notify = some s') : PollInv s' := by
  have hwakes := notify_wakes h hs
  obtain ⟨-, heq⟩ := Option.ite_none_left_eq_some.mp hs
  obtain rfl := Option.some.inj heq
  intro poll hpoll
  have hold := h poll hpoll
  cases poll with
  | entering => trivial
  | created epoch => exact Nat.le_succ_of_le hold
  | parked epoch =>
    have hlt := hwakes epoch hpoll
    exact ⟨hlt.le, fun heq => absurd heq hlt.ne⟩
  | returned => trivial

end Polls

/-! ## Runs -/

structure Inv (s : State) : Prop where
  slot : SlotInv s.slot s.trace
  polls : PollInv s

section Runs

variable {s s' : State}

theorem inv_push (h : Inv s) {batch : ResultBatch} (hclosed : Event.closed ∉ s.trace) :
    Inv (s.push batch) := by
  unfold State.push
  split_ifs with hcancelled hlimit
  · exact ⟨h.slot.reject _, h.polls⟩
  · exact ⟨h.slot.reject _, h.polls⟩
  · exact ⟨h.slot.accept hclosed (by omega), h.polls.produced _ _⟩

/-- **The critical section of a poll.** -/
theorem inv_look (h : Inv s) {i epoch : ℕ} (hepoch : epoch ≤ s.epoch) : Inv (s.look i epoch) := by
  unfold State.look
  split
  · exact ⟨h.slot.respondFailed _, h.polls.respond i _ id⟩
  · rename_i batch rest hbatches hlive
    refine ⟨h.slot.respondData (fun hm => ?_) hbatches, h.polls.respond i _ fun _ => ?_⟩
    · obtain ⟨message, hmessage⟩ := hm
      exact hlive message hmessage
    · simp [Slot.available, hbatches]
  · rename_i n hclosed hnil
    refine ⟨h.slot.respondEos hclosed hnil, h.polls.respond i _ fun _ => ?_⟩
    simp [Slot.available, hclosed]
  · rename_i hclosed hnil
    refine ⟨h.slot, h.polls.set ⟨hepoch, fun _ havailable => ?_⟩⟩
    simp [Slot.available, hclosed, hnil] at havailable

/-- **Every step keeps the invariant.** -/
theorem inv_step (h : Inv s) {a : Act} (hok : ProducerOk s a) (hs : step s a = some s') :
    Inv s' := by
  cases a with
  | push batch =>
    obtain rfl := Option.some.inj hs
    exact inv_push h hok
  | close =>
    obtain rfl := Option.some.inj hs
    exact ⟨h.slot.close, h.polls.produced _ _⟩
  | fail message =>
    obtain rfl := Option.some.inj hs
    exact ⟨h.slot.failed message, h.polls.produced _ _⟩
  | cancel =>
    obtain rfl := Option.some.inj hs
    exact ⟨h.slot.cancel, h.polls⟩
  | cancelFail =>
    obtain ⟨-, heq⟩ := Option.ite_none_left_eq_some.mp hs
    obtain rfl := Option.some.inj heq
    have hpolls : PollInv { s with cancelling := s.cancelling - 1 } := h.polls
    exact ⟨h.slot.failed _, hpolls.produced _ _⟩
  | notify =>
    refine ⟨?_, h.polls.notify hs⟩
    obtain ⟨-, heq⟩ := Option.ite_none_left_eq_some.mp hs
    obtain rfl := Option.some.inj heq
    exact h.slot
  | fetch =>
    obtain rfl := Option.some.inj hs
    refine ⟨h.slot, fun poll hpoll => ?_⟩
    rcases List.mem_append.mp hpoll with hmem | hmem
    · exact h.polls poll hmem
    · rw [List.mem_singleton.mp hmem]
      trivial
  | create i =>
    obtain ⟨-, heq⟩ := Option.ite_none_right_eq_some.mp hs
    obtain rfl := Option.some.inj heq
    exact ⟨h.slot, h.polls.set (le_refl s.epoch)⟩
  | look i =>
    simp only [step] at hs
    split at hs
    · rename_i epoch hpoll
      obtain rfl := Option.some.inj hs
      exact inv_look h (h.polls _ (List.mem_of_getElem? hpoll))
    · cases hs
  | wake i =>
    simp only [step] at hs
    split at hs
    · obtain ⟨-, heq⟩ := Option.ite_none_right_eq_some.mp hs
      obtain rfl := Option.some.inj heq
      exact ⟨h.slot, h.polls.set trivial⟩
    · cases hs
  | drop i =>
    simp only [step] at hs
    split at hs
    · obtain rfl := Option.some.inj hs
      exact ⟨h.slot, h.polls.set trivial⟩
    · cases hs

theorem inv_run {as : List Act} (h : run (guarded step ProducerOk) {} as = some s) : Inv s := by
  refine run_invariant (fun s a s' hinv hs => ?_) ⟨slotInv_start, ?_⟩ h
  · obtain ⟨hok, hs⟩ := guarded_eq_some.mp hs
    exact inv_step hinv hok hs
  · intro poll hpoll
    cases hpoll

/-- **The contract of a result slot**, in every run in which nothing is pushed after `close`: the
    responses that are not failures are numbered without gap; the delivered batches are the first
    accepted ones, in order; an end of stream comes after every accepted batch and reports their
    rows; after a failure every response is a failure; the queued bytes are those of the queued
    batches, within the limit; a parked poll that was not woken beside an available response will be
    woken, since the producer that made the response available has yet to notify; and notifying
    wakes every parked poll. -/
theorem result_slot_contract {as : List Act} (h : run (guarded step ProducerOk) {} as = some s) :
    packetNumbers s.trace = List.range s.slot.packetSeq ∧
    deliveredBatches s.trace
      = numbered ((acceptedBatches s.trace).take (deliveredBatches s.trace).length) ∧
    (∀ later packetSeq rows earlier,
      s.trace = later ++ .responded (.eos packetSeq rows) :: earlier →
      (deliveredBatches earlier).length = (acceptedBatches s.trace).length ∧
        rows = rowCount (acceptedBatches s.trace)) ∧
    (∀ later message earlier, s.trace = later ++ .failed message :: earlier →
      ∀ outcome, Event.responded outcome ∈ later → ∃ message', outcome = .failed message') ∧
    s.slot.queuedBytes = (s.slot.batches.map batchBytes).sum ∧
    s.slot.queuedBytes ≤ maxQueuedResultBytes ∧
    (∀ i epoch, s.polls[i]? = some (.parked epoch) → s.slot.available →
      0 < s.notifying ∨ (step s (.wake i)).isSome) ∧
    (∀ s', step s .notify = some s' → ∀ i epoch, s'.polls[i]? = some (.parked epoch) →
      (step s' (.wake i)).isSome) := by
  obtain ⟨hslot, hpolls⟩ := inv_run h
  refine ⟨hslot.numbers, hslot.delivered, fun later n rows earlier heq => ?_, hslot.fail,
    hslot.bytes, hslot.limit, fun i epoch hpoll havailable => ?_, fun s' hs i epoch hpoll => ?_⟩
  · exact (hslot.eos later n rows earlier heq).2
  · obtain ⟨hle, hwait⟩ := hpolls _ (List.mem_of_getElem? hpoll)
    rcases hle.lt_or_eq with hlt | heq
    · exact .inr (by simp [step, hpoll, hlt])
    · exact .inl (hwait heq havailable)
  · have hlt := notify_wakes hpolls hs epoch (List.mem_of_getElem? hpoll)
    simp [step, hpoll, hlt]

/-- A poll parks, a batch is pushed and wakes it, and after the close it sees the end. -/
def shownRun : List Act :=
  [.fetch, .create 0, .look 0, .push ⟨[[1, 0x78]], false, 0⟩, .notify, .wake 0, .create 0, .look 0,
    .close, .notify, .fetch, .create 1, .look 1]

theorem result_slot_contract_shownRun : ∃ s, run (guarded step ProducerOk) {} shownRun = some s ∧
    s.trace = [.responded (.eos 1 1), .closed, .responded (.data ⟨[[1, 0x78]], false, 0⟩ 0),
      .accepted ⟨[[1, 0x78]], false, 0⟩] ∧
    packetNumbers s.trace = List.range s.slot.packetSeq := by
  refine ⟨_, rfl, rfl, ?_⟩
  exact (result_slot_contract (show run (guarded step ProducerOk) {} shownRun = _ from rfl)).1

end Runs

end Sirius.Doris.ResultSlot
