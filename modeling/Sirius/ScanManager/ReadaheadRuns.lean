import Sirius.ScanManager.ReadaheadSlots

/-!
# Runs of the readahead

* `Counted`: the candidates taken are those with a recorded outcome and those that
  are still open: in hand, waiting for the retry, or issued.
* `slots_accounted`: the slots and the candidates, in every run.
-/

namespace Sirius.ScanManager

open Sirius.Common

theorem Counters.recorded_record (c : Counters) (kind : OutcomeKind) :
    (c.record kind).recorded = c.recorded + 1 := by
  cases kind <;> simp [Counters.record, Counters.recorded, Function.update] <;> omega

/-- The worker is past the point where it takes the candidate that waits for the
    retry. -/
def Worker.pastRetry : Worker → Bool
  | .polling _ => true
  | w => w.task.isSome

namespace Readahead

variable {s s' : Readahead}

/-- Every candidate has a recorded outcome, is issued, or is one of those given: the
    one in hand and the one that waits for the retry. -/
def CountedWith (s : Readahead) (inHand retry : Option ℕ) : Prop :=
  s.counters.candidatesTaken = s.counters.recorded + (s.inFlight.size + s.settled.length) +
    inHand.toList.length + retry.toList.length

/-- All candidates are accounted for, and none waits for the retry while the worker
    is busy with another. -/
structure Counted (s : Readahead) : Prop where
  total : s.CountedWith s.worker.candidate s.retry
  single : s.worker.pastRetry = true → s.retry = none

variable {split budget : ℕ}

theorem CountedWith.record {retry : Option ℕ} {kind : OutcomeKind}
    (h : s.CountedWith (some split) retry) : (s.record kind).CountedWith none retry := by
  have hrec : (s.record kind).counters.recorded = s.counters.recorded + 1 :=
    Counters.recorded_record _ _
  have htaken : (s.record kind).counters.candidatesTaken = s.counters.candidatesTaken := rfl
  unfold CountedWith at h ⊢
  rw [hrec, htaken, h]
  simp only [Option.toList_some, Option.toList_none, List.length_cons, List.length_nil]
  change _ = _ + (s.inFlight.size + s.settled.length) + _ + _
  omega

/-- Dropping entries of the queue changes no counter of the candidates. -/
theorem nextCandidate_counters (queue : List ℕ) (c : Counters) :
    (s.nextCandidate queue c).2.2.candidatesTaken = c.candidatesTaken ∧
      (s.nextCandidate queue c).2.2.recorded = c.recorded := by
  induction queue generalizing c with
  | nil => exact ⟨rfl, rfl⟩
  | cons split rest ih =>
    unfold nextCandidate
    split_ifs
    · exact ih _
    · exact ih _
    · exact ⟨rfl, rfl⟩

/-- What `settle_prefetch` leaves alone. -/
theorem settlePrefetch_frame (id : ℕ) (p : Pending) (covered : Bool) :
    (s.settlePrefetch id p covered).counters = s.counters ∧
      (s.settlePrefetch id p covered).inFlight = s.inFlight ∧
      (s.settlePrefetch id p covered).settled = s.settled ∧
      (s.settlePrefetch id p covered).worker = s.worker ∧
      (s.settlePrefetch id p covered).retry = s.retry := by
  unfold settlePrefetch
  split
  · exact ⟨rfl, rfl, rfl, rfl, rfl⟩
  · dsimp only
    split_ifs <;> exact ⟨rfl, rfl, rfl, rfl, rfl⟩

theorem CountedWith.swap {inHand retry : Option ℕ} (h : s.CountedWith inHand retry) :
    s.CountedWith retry inHand := by
  unfold CountedWith at h ⊢
  omega

/-- The worker may have a candidate that waits for the retry. -/
theorem Counted.free (h : s.CountedWith s.worker.candidate s.retry)
    (hw : s.worker.pastRetry = false) : s.Counted := by
  refine ⟨h, fun hpast => ?_⟩
  rw [hw] at hpast
  cases hpast

theorem exit_counted (h : s.CountedWith none s.retry) : s.exit.Counted := by
  unfold exit
  cases hr : s.retry with
  | none =>
    rw [hr] at h
    exact Counted.free h rfl
  | some split =>
    rw [hr] at h
    exact Counted.free h.swap.record rfl

theorem poll_counted {slot : ℕ} (h : s.CountedWith none s.retry) (hw : s.worker = .polling slot)
    (hretry : s.retry = none) : (s.poll slot).Counted := by
  unfold poll
  split_ifs
  · exact Counted.free h rfl
  cases s.queues[s.cursor]? with
  | none => exact Counted.free h rfl
  | some q =>
    obtain ⟨htaken, hrecorded⟩ := nextCandidate_counters (s := s) q.queue s.counters
    have hdrop : { s with counters := (s.nextCandidate q.queue s.counters).2.2 }.CountedWith none
        s.retry := by
      unfold CountedWith at h ⊢
      dsimp only
      rw [htaken, hrecorded]
      exact h
    dsimp only
    cases (s.nextCandidate q.queue s.counters).2.1 with
    | some split =>
      refine ⟨?_, fun _ => hretry⟩
      have hnew : (s.nextCandidate q.queue s.counters).2.2.candidatesTaken + 1 =
          (s.nextCandidate q.queue s.counters).2.2.recorded +
            (s.inFlight.size + s.settled.length) + 1 + s.retry.toList.length := by
        unfold CountedWith at hdrop
        simp only [Option.toList_none, List.length_nil] at hdrop
        omega
      exact hnew
    | none =>
      dsimp only
      split_ifs
      · refine ⟨?_, fun _ => hretry⟩
        dsimp only
        rw [hw]
        exact hdrop
      · exact Counted.free hdrop rfl

theorem releaseHeld_counted (slot : Option ℕ) {inHand retry : Option ℕ} (h : s.CountedWith inHand retry) :
    (s.releaseHeld slot).CountedWith inHand retry := by
  cases slot with
  | none => exact h
  | some slot => exact h

theorem releaseHeld_retry (slot : Option ℕ) : (s.releaseHeld slot).retry = s.retry := by
  cases slot <;> rfl

theorem finishRound_counted {slot : Option ℕ} {delayed pressure : Bool}
    (h : s.CountedWith (if pressure then some split else none) s.retry) (hretry : s.retry = none) :
    (s.finishRound slot split delayed pressure).Counted := by
  have hback := releaseHeld_counted slot h
  have hkeep : (s.releaseHeld slot).retry = s.retry := releaseHeld_retry slot
  unfold finishRound
  split_ifs at hback ⊢ with hpressure hdelayed
  · exact Counted.free (hkeep ▸ hback.record) rfl
  · rw [hretry] at hback
    exact Counted.free hback.swap rfl
  · exact Counted.free (hkeep ▸ hback) rfl

theorem workerStep_counted {answer : Answer} (hstep : s.workerStep answer = some s')
    (hbook : s.book.Balanced) (h : s.Counted) : s'.Counted := by
  obtain ⟨h, hsingle⟩ := h
  unfold workerStep at hstep
  cases hw : s.worker <;> simp only [hw] at hstep h
  case notStarted => cases hstep
  case stopped => cases hstep
  case idle =>
    split_ifs at hstep <;> cases hstep
    · exact exit_counted h
    · exact Counted.free h rfl
  case gate =>
    unfold Gatekeeper.acquireFor at hstep
    split_ifs at hstep <;> cases hstep
    · exact Counted.free h rfl
    · exact Counted.free h rfl
    · exact Counted.free h rfl
  case acquired slot =>
    split_ifs at hstep
    · cases hstep
      exact exit_counted h
    · cases hr : s.retry <;> simp only [hr] at hstep h <;> cases hstep
      · exact ⟨h, fun _ => rfl⟩
      · exact ⟨h.swap, fun _ => rfl⟩
  case polling slot =>
    cases hstep
    exact poll_counted h hw (hsingle (by rw [hw]; rfl))
  case chosen slot split delayed =>
    have hretry : s.retry = none := hsingle (by rw [hw]; rfl)
    split_ifs at hstep <;> cases hstep
    · exact ⟨h.record, fun _ => hretry⟩
    · exact ⟨h, fun _ => hretry⟩
  case sharing slot split delayed =>
    have hretry : s.retry = none := hsingle (by rw [hw]; rfl)
    split_ifs at hstep <;> cases hstep
    · exact ⟨h, fun _ => hretry⟩
    · exact ⟨h.record, fun _ => hretry⟩
  case publishing slot split delayed =>
    have hretry : s.retry = none := hsingle (by rw [hw]; rfl)
    split_ifs at hstep <;> cases hstep
    · exact ⟨h.record, fun _ => hretry⟩
    · exact ⟨h.record, fun _ => hretry⟩
    · exact ⟨h, fun _ => hretry⟩
  case attempting id p delayed evict =>
    have hretry : s.retry = none := hsingle (by rw [hw]; rfl)
    split_ifs at hstep <;> cases hstep
    · exact ⟨h.record, fun _ => hretry⟩
    · exact ⟨h.record, fun _ => hretry⟩
    · exact ⟨h, fun _ => hretry⟩
    · exact ⟨h, fun _ => hretry⟩
  case preparing id p delayed evict =>
    have hretry : s.retry = none := hsingle (by rw [hw]; rfl)
    unfold afterPrepare at hstep
    split_ifs at hstep <;> cases hstep
    · exact ⟨h.record, fun _ => hretry⟩
    · exact ⟨h, fun _ => hretry⟩
    · exact ⟨h.record, fun _ => hretry⟩
    · exact ⟨h.record, fun _ => hretry⟩
    · exact ⟨h, fun _ => hretry⟩
    · exact ⟨h, fun _ => hretry⟩
  case prepared id p delayed =>
    have hretry : s.retry = none := hsingle (by rw [hw]; rfl)
    split_ifs at hstep <;> cases hstep
    · exact ⟨h.record, fun _ => hretry⟩
    · refine Counted.free ?_ rfl
      have hnew : s.inFlight.lookup id = none := hbook.apart id p (by rw [book_of_worker hw]; rfl)
      have hsize := Table.size_insert_new (v := p) hnew
      unfold CountedWith at h ⊢
      dsimp only
      rw [hsize, h]
      simp only [Worker.candidate, Option.toList_some, Option.toList_none, List.length_cons,
        List.length_nil]
      omega
  case abandoned id p delayed pressure =>
    have hretry : s.retry = none := hsingle (by rw [hw]; rfl)
    cases hstep
    obtain ⟨hc, hf, hs, -, hr⟩ := settlePrefetch_frame (s := s) id p false
    refine ⟨?_, fun _ => hr.trans hretry⟩
    unfold CountedWith at h ⊢
    dsimp only
    rw [hc, hf, hs, hr]
    exact h
  case returned slot split delayed pressure =>
    have hretry : s.retry = none := hsingle (by rw [hw]; rfl)
    cases hstep
    exact finishRound_counted h hretry

theorem complete_counted {id : ℕ} {p : Pending} {out : PrefetchOutcome} (h : s.Counted)
    (hflight : s.inFlight.lookup id = some p) : (s.complete id p out).Counted := by
  unfold complete
  obtain ⟨hc, hf, hs, hw, hr⟩ := settlePrefetch_frame
    (s := { s with
      inFlight := s.inFlight.erase id
      settled := { split := p.split, locked := s.alive p.split, outcome := out } :: s.settled })
    id p (out.ok && out.covered && out.declined == 0)
  have hsize := Table.size_of_lookup hflight
  refine ⟨?_, ?_⟩
  · have htotal := h.total
    unfold CountedWith at htotal ⊢
    rw [hc, hf, hs, hw, hr]
    simp only [List.length_cons]
    omega
  · rw [hw, hr]
    exact h.single

theorem recordOutcome_counted {i : ℕ} {c : Settled} (h : s.Counted)
    (hc : s.settled[i]? = some c) : (s.recordOutcome i c).Counted := by
  have hlt : i < s.settled.length := (List.getElem?_eq_some_iff.mp hc).1
  have hrec : (s.recordOutcome i c).counters.recorded = s.counters.recorded + 1 :=
    Counters.recorded_record _ _
  refine ⟨?_, h.single⟩
  have htotal := h.total
  unfold CountedWith at htotal ⊢
  rw [hrec]
  change s.counters.candidatesTaken = s.counters.recorded + 1 +
    (s.inFlight.size + (s.settled.eraseIdx i).length) + s.worker.candidate.toList.length +
    s.retry.toList.length
  rw [List.length_eraseIdx_of_lt hlt]
  omega

theorem reportReading_counted {throws : Bool} (h : s.Counted) :
    (s.reportReading split throws).Counted := by
  unfold reportReading
  by_cases hbudget : s.budget = 0
  · rw [if_pos hbudget]
    exact h
  by_cases hstage : s.stage split = .disposed
  · rw [if_neg hbudget, if_pos hstage]
    exact h
  rw [if_neg hbudget, if_neg hstage]
  cases s.tickets.lookup split with
  | some t => exact ⟨h.total, h.single⟩
  | none =>
    cases throws with
    | true => exact h
    | false => exact ⟨h.total, h.single⟩

theorem reportDisposed_counted (h : s.Counted) : (s.reportDisposed split).Counted := by
  unfold reportDisposed
  dsimp only
  split_ifs
  · exact ⟨h.total, h.single⟩
  cases s.tickets.lookup split with
  | none => exact ⟨h.total, h.single⟩
  | some t =>
    dsimp only
    split_ifs
    · exact ⟨h.total, h.single⟩
    · exact ⟨h.total, h.single⟩

theorem step_counted {a : Action} (hstep : s.step a = some s') (hbook : s.book.Balanced)
    (h : s.Counted) : s'.Counted := by
  cases a with
  | start =>
    simp only [step] at hstep
    split_ifs at hstep with hguard
    cases hstep
    push Not at hguard
    have htotal := h.total
    rw [hguard.2.1] at htotal
    exact Counted.free htotal rfl
  | arm =>
    simp only [step, Option.some.injEq] at hstep
    subst hstep
    unfold armPrefetching
    split_ifs
    · exact h
    · exact ⟨h.total, h.single⟩
  | requestStop => cases hstep; exact ⟨h.total, h.single⟩
  | stopGate => cases hstep; exact ⟨h.total, h.single⟩
  | register op split =>
    simp only [step] at hstep
    cases hq : s.queues[op]? with
    | none => simp [hq] at hstep
    | some q =>
      simp only [hq] at hstep
      split_ifs at hstep <;> cases hstep <;> exact ⟨h.total, h.single⟩
  | close op =>
    simp only [step] at hstep
    cases hq : s.queues[op]? with
    | none => simp [hq] at hstep
    | some q =>
      simp only [hq, Option.some.injEq] at hstep
      subst hstep
      exact ⟨h.total, h.single⟩
  | publishStage split stage =>
    simp only [step] at hstep
    split_ifs at hstep <;> cases hstep <;> exact ⟨h.total, h.single⟩
  | expire split =>
    simp only [step] at hstep
    split_ifs at hstep
    cases hstep
    exact ⟨h.total, h.single⟩
  | reading split throws =>
    simp only [step] at hstep
    split_ifs at hstep
    cases hstep
    exact reportReading_counted h
  | dispose split =>
    simp only [step] at hstep
    split_ifs at hstep
    cases hstep
    exact reportDisposed_counted h
  | work answer => exact workerStep_counted hstep hbook h
  | complete id out =>
    obtain ⟨p, hp, rfl⟩ := Option.map_eq_some_iff.mp hstep
    exact complete_counted h hp
  | recordOutcome i =>
    obtain ⟨c, hc, rfl⟩ := Option.map_eq_some_iff.mp hstep
    exact recordOutcome_counted h hc

/-! ## Every run -/

/-- What holds in every state of a run. -/
structure Accounted (budget : ℕ) (s : Readahead) : Prop where
  balanced : s.book.Balanced
  disposal : s.Disposal budget
  counted : s.Counted

theorem step_accounted {a : Action} (hstep : s.step a = some s')
    (h : s.Accounted budget) : s'.Accounted budget :=
  ⟨step_balanced hstep h.balanced, step_disposal hstep h.disposal,
    step_counted hstep h.balanced h.counted⟩

theorem fresh_accounted {budget operators : ℕ} (hbudget : 0 < budget) :
    (fresh budget operators).Accounted budget := by
  refine ⟨fresh_balanced budget operators, ?_, ⟨rfl, fun h => by cases h⟩⟩
  exact ⟨hbudget, ⟨rfl, by simp only [fresh]⟩, fun split h => (by cases h),
    fun split t h => (by cases h)⟩

theorem run_accounted {budget operators : ℕ} (hbudget : 0 < budget) {as : List Action}
    (hrun : run step (fresh budget operators) as = some s) : s.Accounted budget :=
  run_invariant (fun _ _ _ h hstep => step_accounted hstep h) (fresh_accounted hbudget) hrun

/-- The slots that the worker holds. -/
def workerSlots (s : Readahead) : ℕ := s.worker.slot.toList.length

/-- The tickets in phase `demand`. -/
def demandTickets (s : Readahead) : ℕ :=
  Table.total (fun _ t => if t.owner = .demand then 1 else 0) s.tickets

/-- The owners of a slot. -/
def holders (s : Readahead) (slot : ℕ) : ℕ :=
  s.worker.slot.toList.count slot +
    Table.total (fun _ p => if p.slot = slot then 1 else 0) s.inFlight +
    Table.total (fun _ t => if t.owner = .demand ∧ t.slot = slot then 1 else 0) s.tickets

/-- The budget that the gatekeeper was given: none before it is armed. -/
def granted (budget : ℕ) (s : Readahead) : ℤ := if s.prefetchingStarted then toInt budget else 0

theorem count_eq_sum (l : List ℕ) (slot : ℕ) :
    l.count slot = (l.map fun k => if k = slot then 1 else 0).sum := by
  induction l with
  | nil => rfl
  | cons k l ih =>
    rw [List.count_cons, List.map_cons, List.sum_cons, ih, Nat.add_comm]
    simp only [beq_iff_eq]

theorem Accounted.once {budget slot : ℕ} (h : s.Accounted budget) (hslot : slot < s.nextSlot) :
    s.holders slot + s.released.count slot = 1 := by
  have hslots := h.balanced.slots fun k => if k = slot then 1 else 0
  have hrange : ((List.range s.nextSlot).map fun k => if k = slot then 1 else 0).sum = 1 := by
    rw [← count_eq_sum, List.count_eq_one_of_mem List.nodup_range (List.mem_range.mpr hslot)]
  unfold holders
  rw [count_eq_sum, count_eq_sum]
  simp only [ite_and]
  exact hslots.trans hrange

theorem Accounted.available (h : s.Accounted budget) :
    s.gatekeeper.available =
      s.granted budget - (s.workerSlots + s.inFlight.size + s.demandTickets : ℕ) := by
  have hslots := h.balanced.slots fun _ => 1
  have hsum : ∀ l : List ℕ, (l.map fun _ => 1).sum = l.length := by simp
  rw [hsum, hsum, List.length_range] at hslots
  have hweight : s.book.weight (fun _ => 1) =
      s.workerSlots + s.inFlight.size + s.demandTickets := by
    unfold SlotBook.weight
    rw [hsum, ← Table.size_eq_total]
    rfl
  have hcount : s.gatekeeper.available + s.nextSlot = s.granted budget + s.released.length := by
    have hbook := h.balanced.count
    unfold granted
    rw [← h.disposal.configured.2]
    exact hbook
  rw [hweight] at hslots
  have hnext : s.book.nextSlot = s.nextSlot := rfl
  have hrel : s.book.released = s.released := rfl
  rw [hnext, hrel] at hslots
  omega

/-- Once every split that had a ticket was disposed, no ticket is left. -/
theorem Accounted.noTickets (h : s.Accounted budget)
    (hall : ∀ split ∈ s.ticketed, split ∈ s.disposed) : s.tickets = ∅ := by
  refine Table.eq_empty fun split => ?_
  cases hl : s.tickets.lookup split with
  | none => rfl
  | some t =>
    have hgone := (h.disposal.gone split (hall split (h.disposal.known split t hl))).2
    rw [hl] at hgone
    cases hgone

/-- **Slots of the readahead**, in every run: the count of the gatekeeper is the
    budget minus what the worker, the prefetches and the demand reads hold; every
    slot has one owner or was released once; once all splits are disposed, no
    prefetch is under way and the worker holds no slot, the count is the budget; and
    every candidate taken has an outcome or is open. -/
theorem slots_accounted {budget operators : ℕ} (hbudget : 0 < budget) {as : List Action}
    (hrun : run step (fresh budget operators) as = some s) :
    s.gatekeeper.available =
      s.granted budget - (s.workerSlots + s.inFlight.size + s.demandTickets : ℕ) ∧
    (∀ slot < s.nextSlot, s.holders slot + s.released.count slot = 1) ∧
    ((∀ split ∈ s.ticketed, split ∈ s.disposed) → s.inFlight = ∅ →
      s.worker.slot = none → s.gatekeeper.available = s.granted budget ∧
        ∀ slot < s.nextSlot, s.released.count slot = 1) ∧
    s.counters.candidatesTaken = s.counters.recorded + (s.inFlight.size + s.settled.length) +
      s.worker.candidate.toList.length + s.retry.toList.length := by
  have h := run_accounted hbudget hrun
  refine ⟨h.available, fun slot hslot => h.once hslot, fun hall hflight hworker => ?_,
    h.counted.total⟩
  have htickets := h.noTickets hall
  refine ⟨?_, fun slot hslot => ?_⟩
  · rw [h.available]
    simp [workerSlots, demandTickets, hworker, hflight, htickets, Table.size]
  · have honce := h.once hslot
    simpa [holders, hworker, hflight, htickets] using honce

/-- The prefetch of one datasource that fails. -/
def failedPrefetch : PrefetchOutcome where
  issued := 1
  declined := 0
  declinedMemoryPressure := 0
  ok := false
  covered := false

/-- A prefetch of split `0` is issued, the executor reads the split before it fails,
    and the slot goes to that read until the split is disposed. -/
def overtakenPrefetch : List Action :=
  [.register 0 0, .start, .arm, .work {}, .work {}, .work {}, .work {}, .work {}, .work {},
    .work {}, .work {}, .work { prepare := { prepared := 1, failed := 0, fellBehind := 0 } },
    .work {}, .publishStage 0 .reading, .reading 0 false, .complete 0 failedPrefetch,
    .recordOutcome 0, .publishStage 0 .disposed, .dispose 0]

theorem slots_accounted_overtaken :
    ∃ s, run step (fresh 2 1) overtakenPrefetch = some s ∧ s.nextSlot = 1 ∧
      s.gatekeeper.available = s.granted 2 ∧ s.released.count 0 = 1 ∧
      s.counters.candidatesTaken = s.counters.recorded := by
  obtain ⟨s, hrun⟩ : ∃ s, run step (fresh 2 1) overtakenPrefetch = some s :=
    Option.isSome_iff_exists.mp (by decide +kernel)
  have hend : (run step (fresh 2 1) overtakenPrefetch).all fun s =>
      s.nextSlot = 1 ∧ (∀ split ∈ s.ticketed, split ∈ s.disposed) ∧ s.inFlight.size = 0 ∧
        s.settled = [] ∧ s.worker = .idle ∧ s.retry = none := by
    decide +kernel
  rw [hrun, Option.all_some, decide_eq_true_iff] at hend
  obtain ⟨hslots, hall, hflight, hsettled, hworker, hretry⟩ := hend
  obtain ⟨-, -, hdrained, hcounted⟩ := slots_accounted (by decide) hrun
  have hempty : s.inFlight = ∅ := AList.ext (List.length_eq_zero_iff.mp hflight)
  obtain ⟨havailable, honce⟩ := hdrained hall hempty (by rw [hworker]; rfl)
  refine ⟨s, hrun, hslots, havailable, honce 0 (by omega), ?_⟩
  rw [hcounted, hflight, hsettled, hworker, hretry]
  rfl

/-- The worker holds a slot while it looks for a candidate, also after the last split
    was disposed. -/
theorem worker_holds_slot :
    (run step (fresh 2 1) [.start, .arm, .publishStage 0 .reading, .reading 0 false,
        .publishStage 0 .disposed, .dispose 0, .work {}, .work {}]).any fun s =>
      (∀ split ∈ s.ticketed, split ∈ s.disposed) ∧ s.inFlight.size = 0 ∧ s.settled = [] ∧
        s.prefetchingStarted = true ∧ s.granted 2 = 2 ∧ s.gatekeeper.available = 1 := by
  decide +kernel

end Readahead

end Sirius.ScanManager
