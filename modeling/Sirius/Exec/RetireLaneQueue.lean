import Sirius.Exec.RetireLaneRuns

/-!
# The queue of a retire lane

* `QueueOk`: a committed function is queued, in the batch of the drainer, or retired.
* `HintOk`: the hint is not above the ticket of a function that can have completed.
-/

namespace Sirius.Exec.RetireLane

open Sirius.Common

/-! ## The queue -/

/-- The functions that the drainer holds. -/
def Drainer.batch (d : Drainer) : List Entry :=
  match d.phase with
  | .storeHint ready | .readFailed ready | .readError ready _ | .readInstall ready _ _
  | .clear ready => ready
  | .invoke called todo _ _ _ => called ++ todo
  | .readCompleted | .readRecovered _ | .take | .settle | .release => []

/-- Those of them that it has called. -/
def Drainer.called (d : Drainer) : List Entry :=
  match d.phase with
  | .invoke called _ _ _ _ => called
  | .clear ready => ready
  | _ => []

/-- The batch of the drainer, if there is one. -/
def Lane.batch (s : Lane) : List Entry := s.drainer.elim [] Drainer.batch

/-- What the drainer has called of its batch. -/
def Lane.called (s : Lane) : List Entry := s.drainer.elim [] Drainer.called

/-- The functions of a submission that are not queued yet. -/
def stagedOf : Option SubmitPhase → List ℕ
  | some (.staging staged) | some (.splice staged _) => staged
  | _ => []

/-- A submission has its ticket and has not queued its functions. -/
def Lane.splicing (s : Lane) : Prop := ∃ staged ticket, s.submitter = some (.splice staged ticket)

/-- Where the committed functions are, in order, and their tickets. -/
structure QueueOk (s : Lane) : Prop where
  split : s.committed = s.destroyed ++ (s.batch ++ s.pending)
  calls : s.invoked.map Invocation.entry = s.destroyed ++ s.called
  sorted : s.committed.Pairwise fun a b => a.ticket ≤ b.ticket
  tickets : ∀ e ∈ s.committed, e.ticket ≤ s.submitted ∧ (s.splicing → e.ticket < s.submitted)
  fns : (s.committed.map Entry.fn ++ stagedOf s.submitter).Nodup
  fresh : ∀ f ∈ s.committed.map Entry.fn ++ stagedOf s.submitter, f < s.nextFn
  active : s.batch ≠ [] → s.activeTicket < noPending

variable {s s' : Lane}

theorem QueueOk.pending_sorted (h : QueueOk s) :
    s.pending.Pairwise fun a b => a.ticket ≤ b.ticket := by
  have hsorted := h.sorted
  rw [h.split] at hsorted
  exact (List.pairwise_append.mp (List.pairwise_append.mp hsorted).2.1).2.1

theorem QueueOk.mem_pending (h : QueueOk s) {e : Entry} (he : e ∈ s.pending) : e ∈ s.committed := by
  rw [h.split]
  exact List.mem_append_right _ (List.mem_append_right _ he)

/-- A submission side that does not touch the queue. -/
theorem QueueOk.of_submitter (h : QueueOk s) (hpending : s'.pending = s.pending)
    (hcommitted : s'.committed = s.committed) (hdrainer : s'.drainer = s.drainer)
    (hinvoked : s'.invoked = s.invoked) (hdestroyed : s'.destroyed = s.destroyed)
    (hactive : s'.activeTicket = s.activeTicket) (hsubmitted : s'.submitted = s.submitted)
    (hnext : s'.nextFn = s.nextFn) (hsplicing : ¬ s'.splicing)
    (hstaged : (stagedOf s'.submitter).Sublist (stagedOf s.submitter)) : QueueOk s' := by
  have hbatch : s'.batch = s.batch := by rw [Lane.batch, hdrainer, Lane.batch]
  have hcalled : s'.called = s.called := by rw [Lane.called, hdrainer, Lane.called]
  constructor
  · rw [hcommitted, hdestroyed, hbatch, hpending]
    exact h.split
  · rw [hinvoked, hdestroyed, hcalled]
    exact h.calls
  · rw [hcommitted]
    exact h.sorted
  · rw [hcommitted, hsubmitted]
    exact fun e he => ⟨(h.tickets e he).1, fun hs => absurd hs hsplicing⟩
  · rw [hcommitted]
    exact h.fns.sublist (hstaged.append_left _)
  · rw [hcommitted, hnext]
    exact fun f hf => h.fresh f ((hstaged.append_left _).subset hf)
  · rw [hbatch, hactive]
    exact h.active

theorem QueueOk.splice (h : QueueOk s) (hb : Boundary s) {staged : List ℕ} {ticket : ℕ}
    (hp : s.submitter = some (.splice staged ticket)) :
    QueueOk { s with
      pending := s.pending ++ staged.map fun fn => ⟨ticket, fn⟩
      committed := s.committed ++ staged.map fun fn => ⟨ticket, fn⟩
      submitter := some (.storeHint ticket) } := by
  have hticket : ticket = s.submitted := by
    have hsubmitter := hb.submitter
    rw [hp] at hsubmitter
    exact hsubmitter.2.2
  have hnew : ∀ e ∈ staged.map fun fn => (⟨ticket, fn⟩ : Entry), e.ticket = s.submitted := by
    intro e he
    obtain ⟨fn, -, rfl⟩ := List.mem_map.mp he
    exact hticket
  have hfns : ((s.committed ++ staged.map fun fn => (⟨ticket, fn⟩ : Entry)).map Entry.fn) =
      s.committed.map Entry.fn ++ staged := by
    rw [List.map_append, List.map_map]
    congr 1
    exact List.map_id' staged
  have hfns₀ := h.fns
  have hfresh₀ := h.fresh
  rw [hp] at hfns₀ hfresh₀
  constructor
  · show s.committed ++ _ = s.destroyed ++ (s.batch ++ (s.pending ++ _))
    rw [h.split]
    simp only [List.append_assoc]
  · exact h.calls
  · refine List.pairwise_append.mpr ⟨h.sorted, ?_, fun a ha b hb' => ?_⟩
    · rw [List.pairwise_map]
      exact List.Pairwise.imp (fun _ => le_rfl) (List.pairwise_of_forall fun _ _ => trivial)
    · rw [hnew b hb']
      exact (h.tickets a ha).1
  · intro e he
    refine ⟨?_, fun ⟨_, _, hs⟩ => by cases hs⟩
    rcases List.mem_append.mp he with he | he
    · exact (h.tickets e he).1
    · exact (hnew e he).le
  · show (List.map Entry.fn _ ++ []).Nodup
    rw [List.append_nil, hfns]
    exact hfns₀
  · show ∀ f ∈ List.map Entry.fn _ ++ [], f < s.nextFn
    rw [List.append_nil, hfns]
    exact hfresh₀
  · exact h.active

theorem QueueOk.drainerStep {d : Drainer} (h : QueueOk s) (hb : Boundary s)
    (hd : s.drainer = some d) (hs : drainerStep s d = some s') : QueueOk s' := by
  obtain ⟨goal, done, force, phase⟩ := d
  have hsplit := h.split
  have hcalls := h.calls
  have hactive := h.active
  rw [Lane.batch, hd] at hsplit hactive
  rw [Lane.called, hd] at hcalls
  cases phase with
  | take =>
    simp only [RetireLane.drainerStep] at hs
    split_ifs at hs
    cases hs
    refine ⟨?_, hcalls, h.sorted, h.tickets, h.fns, h.fresh, fun hne => ?_⟩
    · show s.committed = s.destroyed ++ (List.takeWhile _ s.pending ++ List.dropWhile _ s.pending)
      rw [List.takeWhile_append_dropWhile]
      exact hsplit
    · change List.takeWhile _ s.pending ≠ [] at hne
      obtain ⟨e, rest, heq⟩ := List.exists_cons_of_ne_nil hne
      have hmem : e ∈ s.pending :=
        (List.takeWhile_sublist _).subset (heq ▸ List.mem_cons_self)
      have hle := (h.tickets e (h.mem_pending hmem)).1
      show frontTicket (List.takeWhile _ s.pending) < noPending
      rw [heq]
      exact hle.trans_lt hb.bounded
  | invoke called todo bad deviceError installError =>
    cases todo with
    | nil =>
      cases hs
      refine ⟨?_, hcalls, h.sorted, h.tickets, h.fns, h.fresh, fun hne => hactive ?_⟩
      · show s.committed = s.destroyed ++ (called ++ s.pending)
        rw [hsplit]
        simp [Drainer.batch]
      · change called ≠ [] at hne
        simpa [Drainer.batch] using hne
    | cons e todo =>
      cases hs
      refine ⟨?_, ?_, h.sorted, h.tickets, h.fns, h.fresh, fun _ => hactive ?_⟩
      · show s.committed = s.destroyed ++ ((called ++ [e]) ++ todo ++ s.pending)
        rw [hsplit]
        simp [Drainer.batch]
      · show List.map Invocation.entry (s.invoked ++ [_]) = s.destroyed ++ (called ++ [e])
        rw [List.map_append, hcalls, List.append_assoc]
        rfl
      · simp [Drainer.batch]
  | clear ready =>
    cases ready with
    | nil =>
      cases hs
      exact ⟨hsplit, hcalls, h.sorted, h.tickets, h.fns, h.fresh, fun hne => absurd rfl hne⟩
    | cons e ready =>
      cases hs
      refine ⟨?_, ?_, h.sorted, h.tickets, h.fns, h.fresh, fun _ => hactive ?_⟩
      · show s.committed = (s.destroyed ++ [e]) ++ (ready ++ s.pending)
        rw [hsplit]
        simp [Drainer.batch]
      · show List.map Invocation.entry s.invoked = (s.destroyed ++ [e]) ++ ready
        rw [hcalls]
        simp [Drainer.called]
      · simp [Drainer.batch]
  | settle =>
    simp only [RetireLane.drainerStep] at hs
    split_ifs at hs
    cases hs
    exact ⟨hsplit, hcalls, h.sorted, h.tickets, h.fns, h.fresh, fun hne => absurd rfl hne⟩
  | release =>
    cases hs
    exact ⟨hsplit, hcalls, h.sorted, h.tickets, h.fns, h.fresh, fun hne => absurd rfl hne⟩
  | _ =>
    cases hs
    exact ⟨hsplit, hcalls, h.sorted, h.tickets, h.fns, h.fresh, hactive⟩

/-- The drainer only takes from the queue. -/
theorem drainerStep_pending {d : Drainer} (hs : drainerStep s d = some s') :
    ∀ e ∈ s'.pending, e ∈ s.pending := by
  unfold drainerStep at hs
  split at hs <;> (try split_ifs at hs) <;> cases hs <;> intro e he <;>
    first
    | exact he
    | exact (List.dropWhile_sublist _).subset he

/-- A thread that claims the flag has no batch yet. -/
theorem callerStep_batch {i : ℕ} {c : CallerPhase} (h : callerStep s i c = some s') :
    s'.batch = s.batch ∧ s'.called = s.called := by
  cases c <;> simp only [callerStep] at h
  case claim goal done =>
    cases h
    rcases hd : s.drainer with _ | d <;> simp [Lane.batch, Lane.called, hd, Drainer.batch,
      Drainer.called]
  case returned => cases h
  case claimQuiesce =>
    split_ifs at h with hd
    cases h
    simp only [Bool.not_eq_true, Option.isSome_eq_false_iff, Option.isNone_iff_eq_none] at hd
    simp [Lane.batch, Lane.called, hd, Drainer.batch, Drainer.called]
  case claimFail error =>
    split_ifs at h with hd
    cases h
    simp only [Bool.not_eq_true, Option.isSome_eq_false_iff, Option.isNone_iff_eq_none] at hd
    simp [Lane.batch, Lane.called, hd, Drainer.batch, Drainer.called]
  case readHint goal done => split_ifs at h <;> cases h <;> exact ⟨rfl, rfl⟩
  all_goals
    cases h
    exact ⟨rfl, rfl⟩

theorem QueueOk.submitterStep {p : SubmitPhase} {code : ℕ} (h : QueueOk s) (hb : Boundary s)
    (hp : s.submitter = some p) (hs : submitterStep s code p = some s') : QueueOk s' := by
  cases p with
  | splice staged ticket =>
    simp only [RetireLane.submitterStep] at hs
    split_ifs at hs
    cases hs
    exact h.splice hb hp
  | staging staged => cases hs
  | committed => cases hs
  | _ =>
    simp only [RetireLane.submitterStep] at hs
    (try split_ifs at hs) <;> cases hs <;>
      exact h.of_submitter rfl rfl rfl rfl rfl rfl rfl rfl (by rintro ⟨_, _, h⟩; cases h)
        (List.nil_sublist _)

theorem QueueOk.step (h : QueueOk s) (hb : Boundary s) (hs : Steps s s') : QueueOk s' := by
  cases hs with
  | begin hfree hopen =>
    exact h.of_submitter rfl rfl rfl rfl rfl rfl rfl rfl (by rintro ⟨_, _, h⟩; cases h)
      (List.nil_sublist _)
  | stage staged hp =>
    have hfns := h.fns
    have hfresh := h.fresh
    rw [hp] at hfns hfresh
    refine ⟨h.split, h.calls, h.sorted, fun e he => ⟨(h.tickets e he).1, ?_⟩, ?_, ?_, h.active⟩
    · rintro ⟨_, _, hs⟩
      cases hs
    · show (s.committed.map Entry.fn ++ (staged ++ [s.nextFn])).Nodup
      rw [← List.append_assoc, List.nodup_append]
      refine ⟨hfns, List.nodup_singleton _, fun f hf g hg => ?_⟩
      rw [List.mem_singleton.mp hg]
      exact (hfresh f hf).ne
    · show ∀ f ∈ s.committed.map Entry.fn ++ (staged ++ [s.nextFn]), f < s.nextFn + 1
      rw [← List.append_assoc]
      intro f hf
      rcases List.mem_append.mp hf with hf | hf
      · exact Nat.lt_succ_of_lt (hfresh f hf)
      · rw [List.mem_singleton.mp hf]
        exact Nat.lt_succ_self _
  | commitEmpty hp =>
    exact h.of_submitter rfl rfl rfl rfl rfl rfl rfl rfl (by rintro ⟨_, _, h⟩; cases h)
      (List.nil_sublist _)
  | commit staged hp hmax =>
    have hfns := h.fns
    have hfresh := h.fresh
    rw [hp] at hfns hfresh
    refine ⟨h.split, h.calls, h.sorted, fun e he => ?_, hfns, hfresh, h.active⟩
    have hle := (h.tickets e he).1
    exact ⟨Nat.le_succ_of_le hle, fun _ => Nat.lt_succ_of_le hle⟩
  | submitter p code s' hp hs => exact h.submitterStep hb hp hs
  | endSubmission _ | quiesce _ =>
    exact h.of_submitter rfl rfl rfl rfl rfl rfl rfl rfl (by rintro ⟨_, _, h⟩; cases h)
      (List.nil_sublist _)
  | caller i c s' hi hs =>
    obtain ⟨hbatch, hcalled⟩ := callerStep_batch hs
    obtain ⟨callers, drainer, rfl⟩ := callerStep_frame hs
    refine ⟨?_, ?_, h.sorted, h.tickets, h.fns, h.fresh, ?_⟩
    · rw [hbatch]
      exact h.split
    · rw [hcalled]
      exact h.calls
    · rw [hbatch]
      exact h.active
  | drainer d s' hd hs => exact h.drainerStep hb hd hs
  | callback p hp =>
    obtain ⟨_, _, _, _, _, heq⟩ := callbackStep_frame s p
    rw [heq]
    exact ⟨h.split, h.calls, h.sorted, h.tickets, h.fns, h.fresh, h.active⟩
  | _ => exact ⟨h.split, h.calls, h.sorted, h.tickets, h.fns, h.fresh, h.active⟩

/-! ## The hint -/

/-- The hint is at most the ticket of a queued function, unless that was spliced in just now. -/
def HintOk (s : Lane) : Prop :=
  ∀ e ∈ s.pending, s.oldestHint ≤ e.ticket ∨ s.submitter = some (.storeHint e.ticket)

theorem frontTicket_le {pending : List Entry} (h : pending.Pairwise fun a b => a.ticket ≤ b.ticket)
    {e : Entry} (he : e ∈ pending) : frontTicket pending ≤ e.ticket := by
  cases pending with
  | nil => cases he
  | cons first rest =>
    rcases List.mem_cons.mp he with rfl | he
    · exact le_rfl
    · exact (List.pairwise_cons.mp h).1 e he

/-- A submission side that is not between a splice and the store of the hint. -/
theorem HintOk.of_submitter (h : HintOk s) (hpending : s'.pending = s.pending)
    (hhint : s'.oldestHint = s.oldestHint) (hs : ∀ ticket, s.submitter ≠ some (.storeHint ticket)) :
    HintOk s' := by
  intro e he
  rw [hpending] at he
  rw [hhint]
  exact .inl ((h e he).resolve_right (hs _))

theorem HintOk.submitterStep {p : SubmitPhase} {code : ℕ} (h : HintOk s) (hq : QueueOk s)
    (hp : s.submitter = some p) (hs : submitterStep s code p = some s') : HintOk s' := by
  cases p with
  | splice staged ticket =>
    simp only [RetireLane.submitterStep] at hs
    split_ifs at hs
    cases hs
    intro e he
    rcases List.mem_append.mp he with he | he
    · refine .inl ((h e he).resolve_right ?_)
      rw [hp]
      simp
    · obtain ⟨fn, -, rfl⟩ := List.mem_map.mp he
      exact .inr rfl
  | storeHint ticket =>
    cases hs
    exact fun e he => .inl (frontTicket_le hq.pending_sorted he)
  | staging staged => cases hs
  | committed => cases hs
  | _ =>
    simp only [RetireLane.submitterStep] at hs
    (try split_ifs at hs) <;> cases hs <;> exact h.of_submitter rfl rfl (by simp [hp])

theorem HintOk.drainerStep {d : Drainer} (h : HintOk s) (hq : QueueOk s)
    (hs : drainerStep s d = some s') : HintOk s' := by
  unfold RetireLane.drainerStep at hs
  split at hs
  case h_3 =>
    -- what stays in the queue was in it
    split_ifs at hs
    cases hs
    exact fun e he => h e ((List.dropWhile_sublist _).subset he)
  case h_4 =>
    cases hs
    exact fun e he => .inl (frontTicket_le hq.pending_sorted he)
  case h_12 =>
    split_ifs at hs
    cases hs
    exact h
  all_goals
    cases hs
    exact h

theorem HintOk.step (h : HintOk s) (hq : QueueOk s) (hs : Steps s s') : HintOk s' := by
  cases hs with
  | begin hfree hopen => exact h.of_submitter rfl rfl (by simp [hfree])
  | stage _ hp | commitEmpty hp | commit _ hp _ => exact h.of_submitter rfl rfl (by simp [hp])
  | submitter p code s' hp hs => exact h.submitterStep hq hp hs
  | endSubmission hp => exact h.of_submitter rfl rfl (by simp [hp])
  | quiesce hfree => exact h.of_submitter rfl rfl (by simp [hfree])
  | caller i c s' hi hs =>
    obtain ⟨callers, drainer, rfl⟩ := callerStep_frame hs
    exact h
  | drainer d s' hd hs => exact h.drainerStep hq hs
  | callback p hp =>
    obtain ⟨_, _, _, _, _, heq⟩ := callbackStep_frame s p
    rw [heq]
    exact h
  | _ => exact h

end Sirius.Exec.RetireLane
