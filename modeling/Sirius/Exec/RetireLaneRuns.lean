import Sirius.Exec.RetireLane

/-!
# The frontiers of a retire lane

* `Steps`: what a step of the system is.
* `Boundary`: which tickets have a callback, and what a failed installation leaves behind.
* `Device`: the completion slot is a function of the callbacks that were delivered.
-/

namespace Sirius.Exec.RetireLane

open Sirius.Common

/-! ## Steps -/

/-- What a step may do to a lane. -/
inductive Steps (s : Lane) : Lane → Prop
  | begin (hfree : s.submitter = none) (hopen : s.closed = false) :
      Steps s { s with submitter := some (.staging []) }
  | stage (staged : List ℕ) (h : s.submitter = some (.staging staged)) :
      Steps s { s with
        submitter := some (.staging (staged ++ [s.nextFn]))
        nextFn := s.nextFn + 1 }
  | commitEmpty (h : s.submitter = some (.staging [])) :
      Steps s { s with submitter := some .committed }
  | commit (staged : List ℕ) (h : s.submitter = some (.staging staged))
      (hmax : s.submitted ≠ noPending - 1) :
      Steps s { s with
        submitted := s.submitted + 1
        submitter := some (.splice staged (s.submitted + 1)) }
  | submitter (p : SubmitPhase) (code : ℕ) (s' : Lane) (hp : s.submitter = some p)
      (hs : submitterStep s code p = some s') : Steps s s'
  | endSubmission (h : s.submitter = some .committed) : Steps s { s with submitter := none }
  | detach (hfree : s.submitter = none) : Steps s { s with detached := true }
  | quiesceDetached : Steps s { s with callers := s.callers ++ [CallerPhase.claimQuiesce] }
  | quiesce (hfree : s.submitter = none) : Steps s { s with submitter := some .quiesceSync }
  | failAll (error : ℕ) (hfree : s.submitter = none) :
      Steps s { s with
        detached := true
        closed := true
        callers := s.callers ++ [CallerPhase.claimFail error] }
  | stopCallbacks : Steps s { s with stopped := true }
  | drain :
      Steps s { s with callers := s.callers ++ [CallerPhase.readCompleted (max s.completed s.recovered)] }
  | caller (i : ℕ) (c : CallerPhase) (s' : Lane) (hi : s.callers[i]? = some c)
      (hs : callerStep s i c = some s') : Steps s s'
  | drainer (d : Drainer) (s' : Lane) (hd : s.drainer = some d)
      (hs : drainerStep s d = some s') : Steps s s'
  | deliver (status : ℕ) (hnone : s.callback = none) (hlt : s.completed < s.installed) :
      Steps s { s with callback := some (.check (s.completed + 1) status) }
  | callback (p : CallbackPhase) (hp : s.callback = some p) : Steps s (callbackStep s p)

variable {s s' : Lane}

theorem steps_of_step {a : Action} (h : step s a = some s') : Steps s s' := by
  cases a with
  | begin =>
    simp only [step] at h
    split_ifs at h with hg
    cases h
    simp only [not_or, Bool.not_eq_true, Option.isSome_eq_false_iff, Option.isNone_iff_eq_none] at hg
    exact .begin hg.1 hg.2.2
  | stage =>
    simp only [step] at h
    split at h
    · next staged hs => cases h; exact .stage staged hs
    · cases h
  | commit =>
    simp only [step] at h
    split at h
    · next staged hs =>
      simp only [commit] at h
      split_ifs at h with hnil hmax
      · subst hnil
        cases h
        exact .commitEmpty hs
      · cases h
        exact .commit staged hs hmax
    · cases h
  | submitter code =>
    obtain ⟨p, hp, hs⟩ := Option.bind_eq_some_iff.mp h
    exact .submitter p code s' hp hs
  | endSubmission =>
    simp only [step] at h
    split at h
    · next hs => cases h; exact .endSubmission hs
    · cases h
  | detach =>
    simp only [step] at h
    split_ifs at h with hg
    cases h
    exact .detach (by simpa using hg)
  | quiesce =>
    simp only [step] at h
    split_ifs at h with hg hd <;> cases h
    · exact .quiesceDetached
    · exact .quiesce (by simpa using hg)
  | failAll error =>
    simp only [step] at h
    split_ifs at h with hg <;> cases h
    · exact .failAll cudaErrorUnknown (by simpa using mt .inl hg)
    · exact .failAll error (by simpa using mt .inl hg)
  | stopCallbacks =>
    simp only [step] at h
    split_ifs at h
    cases h
    exact .stopCallbacks
  | drain => cases h; exact .drain
  | caller i =>
    obtain ⟨c, hi, hs⟩ := Option.bind_eq_some_iff.mp h
    exact .caller i c s' hi hs
  | drainer =>
    obtain ⟨d, hd, hs⟩ := Option.bind_eq_some_iff.mp h
    exact .drainer d s' hd hs
  | deliver status =>
    simp only [step] at h
    split_ifs at h with hg
    cases h
    simp only [not_or, not_le, Bool.not_eq_true, Option.isSome_eq_false_iff,
      Option.isNone_iff_eq_none] at hg
    exact .deliver status hg.1 hg.2.2
  | callback =>
    obtain ⟨p, hp, rfl⟩ := Option.map_eq_some_iff.mp h
    exact .callback p hp

/-- A thread before its claim touches the callers and the drainer flag. -/
theorem callerStep_frame {i : ℕ} {c : CallerPhase} (h : callerStep s i c = some s') :
    ∃ callers drainer, s' = { s with callers := callers, drainer := drainer } := by
  cases c <;> simp only [callerStep] at h
  case claim goal done => cases h; exact ⟨_, _, rfl⟩
  case returned => cases h
  all_goals
    first
    | (cases h; exact ⟨_, _, rfl⟩)
    | (split_ifs at h <;> cases h <;> exact ⟨_, _, rfl⟩)

/-- The drainer touches the queue and its own record. -/
theorem drainerStep_frame {d : Drainer} (h : drainerStep s d = some s') :
    ∃ pending activeTicket oldestHint drainer invoked destroyed, s' = { s with
      pending := pending
      activeTicket := activeTicket
      oldestHint := oldestHint
      drainer := drainer
      invoked := invoked
      destroyed := destroyed } := by
  unfold drainerStep at h
  split at h <;> try split_ifs at h
  all_goals
    cases h
    exact ⟨_, _, _, _, _, _, rfl⟩

/-- A callback touches the slot. -/
theorem callbackStep_frame (s : Lane) (p : CallbackPhase) :
    ∃ completed firstFailed firstError callback delivered, callbackStep s p = { s with
      completed := completed
      firstFailed := firstFailed
      firstError := firstError
      callback := callback
      delivered := delivered } := by
  cases p <;> simp only [callbackStep]
  case check ticket status => split_ifs <;> exact ⟨_, _, _, _, _, rfl⟩
  all_goals exact ⟨_, _, _, _, _, rfl⟩

/-! ## Boundaries -/

/-- What a failed installation has stored, once it has. -/
def Stored (s : Lane) : Prop :=
  match s.installFailure with
  | none => s.enqueueError = 0 ∧ s.failedEnqueueTicket = noPending
  | some (ticket, error) => s.enqueueError = error ∧ s.failedEnqueueTicket = ticket

/-- Every callback has been delivered since the last ticket was submitted. -/
def Synced (s : Lane) : Prop :=
  s.completed = s.installed ∧ s.callback = none ∧ s.synced = s.submitted

/-- Where the holder of `submit_m_` is. -/
def SubmitOk (s : Lane) : Option SubmitPhase → Prop
  | none | some .committed | some .quiesceSync => Stored s
  | some (.staging _) => s.installFailure = none ∧ Stored s
  | some (.splice _ ticket) | some (.storeHint ticket) | some (.install ticket) =>
    s.installFailure = none ∧ Stored s ∧ ticket = s.submitted
  | some (.storeError ticket error) => s.installFailure = some (ticket, error) ∧
    s.enqueueError = 0 ∧ s.failedEnqueueTicket = noPending
  | some (.storeTicket ticket error) => s.installFailure = some (ticket, error) ∧
    s.enqueueError = error ∧ s.failedEnqueueTicket = noPending
  | some (.synchronize ticket error) => s.installFailure = some (ticket, error) ∧ Stored s
  | some (.recover ticket error) =>
    s.installFailure = some (ticket, error) ∧ Stored s ∧ Synced s
  | some .quiesceRecover => Stored s ∧ Synced s

/-- One, while the last ticket has no callback. -/
def Lane.gap (s : Lane) : ℕ :=
  match s.submitter with
  | some (.splice ..) | some (.storeHint _) | some (.install _) => 1
  | _ => if s.installFailure.isSome then 1 else 0

/-- What the submitter and the counters of installed callbacks say of each other. -/
structure Boundary (s : Lane) : Prop where
  bounded : s.submitted < noPending
  count : s.installed + s.gap = s.submitted
  submitter : SubmitOk s s.submitter
  failure : ∀ ticket error, s.installFailure = some (ticket, error) →
    ticket = s.submitted ∧ s.closed = true ∧ error ≠ 0
  recovered : s.recovered ≠ 0 → s.recovered = s.submitted ∧ s.installFailure.isSome ∧ Stored s ∧
    Synced s

theorem Boundary.submitterStep {p : SubmitPhase} {code : ℕ} (h : Boundary s)
    (hp : s.submitter = some p) (hs : submitterStep s code p = some s') : Boundary s' := by
  obtain ⟨hbounded, hcount, hsubmitter, hfailure, hrecovered⟩ := h
  rw [hp] at hsubmitter
  rw [Lane.gap, hp] at hcount
  cases p with
  | staging staged => cases hs
  | committed => cases hs
  | splice staged ticket =>
    simp only [RetireLane.submitterStep] at hs
    split_ifs at hs
    cases hs
    exact ⟨hbounded, hcount, hsubmitter, hfailure, hrecovered⟩
  | storeHint ticket =>
    cases hs
    exact ⟨hbounded, hcount, hsubmitter, hfailure, hrecovered⟩
  | install ticket =>
    obtain ⟨hnone, hstored, rfl⟩ := hsubmitter
    have hzero : s.recovered = 0 := by
      by_contra hne
      simpa [hnone] using (hrecovered hne).2.1
    simp only [RetireLane.submitterStep] at hs
    split_ifs at hs with hcode <;> cases hs
    · refine ⟨hbounded, ?_, hstored, ?_, fun hne => absurd hzero hne⟩
      · simpa [Lane.gap, hnone] using hcount
      · exact hfailure
    · refine ⟨hbounded, hcount, ⟨rfl, ?_⟩, ?_, fun hne => absurd hzero hne⟩
      · simpa [Stored, hnone] using hstored
      · intro ticket error heq
        cases heq
        exact ⟨rfl, rfl, hcode⟩
  | storeError ticket error =>
    cases hs
    have hstored : ¬ Stored s := by
      simp only [Stored, hsubmitter.1]
      intro hst
      exact (hfailure _ _ hsubmitter.1).2.2 (hst.1 ▸ hsubmitter.2.1)
    refine ⟨hbounded, hcount, ⟨hsubmitter.1, rfl, hsubmitter.2.2⟩, hfailure, fun hne => ?_⟩
    exact absurd (hrecovered hne).2.2.1 hstored
  | storeTicket ticket error =>
    cases hs
    have hstored : ¬ Stored s := by
      simp only [Stored, hsubmitter.1]
      intro hst
      have hlt := hbounded
      rw [← (hfailure _ _ hsubmitter.1).1, ← hst.2, hsubmitter.2.2] at hlt
      exact lt_irrefl _ hlt
    refine ⟨hbounded, hcount, ⟨hsubmitter.1, ?_⟩, hfailure, fun hne => ?_⟩
    · simp only [Stored, hsubmitter.1]
      exact ⟨hsubmitter.2.1, trivial⟩
    · exact absurd (hrecovered hne).2.2.1 hstored
  | synchronize ticket error =>
    simp only [RetireLane.submitterStep] at hs
    split_ifs at hs with hcode hidle <;> cases hs
    · simp only [Lane.streamIdle, Bool.and_eq_true, Option.isNone_iff_eq_none, beq_iff_eq] at hidle
      refine ⟨hbounded, hcount, ⟨hsubmitter.1, hsubmitter.2, hidle.2, hidle.1, rfl⟩, hfailure,
        fun hne => ?_⟩
      obtain ⟨heq, hsome, hstored, hsynced⟩ := hrecovered hne
      exact ⟨heq, hsome, hstored, hsynced.1, hsynced.2.1, rfl⟩
    · exact ⟨hbounded, hcount, hsubmitter.2, hfailure, hrecovered⟩
  | recover ticket error =>
    cases hs
    obtain ⟨hsome, hstored, hsynced⟩ := hsubmitter
    have heq := (hfailure _ _ hsome).1
    refine ⟨hbounded, hcount, hstored, hfailure, fun _ => ⟨heq, ?_, hstored, hsynced⟩⟩
    show s.installFailure.isSome = true
    rw [hsome]
    rfl
  | quiesceSync =>
    simp only [RetireLane.submitterStep] at hs
    split_ifs at hs with hcode hidle <;> cases hs
    · simp only [Lane.streamIdle, Bool.and_eq_true, Option.isNone_iff_eq_none, beq_iff_eq] at hidle
      refine ⟨hbounded, hcount, ⟨hsubmitter, hidle.2, hidle.1, rfl⟩, hfailure, fun hne => ?_⟩
      obtain ⟨heq, hsome, hstored, hsynced⟩ := hrecovered hne
      exact ⟨heq, hsome, hstored, hsynced.1, hsynced.2.1, rfl⟩
    · exact ⟨hbounded, hcount, hsubmitter, hfailure, hrecovered⟩
  | quiesceRecover =>
    cases hs
    obtain ⟨hstored, hsynced⟩ := hsubmitter
    refine ⟨hbounded, hcount, hstored, hfailure, fun hne => ?_⟩
    dsimp only at hne ⊢
    by_cases herror : s.enqueueError = 0
    · rw [if_neg (by simpa using herror)] at hne ⊢
      obtain ⟨heq, hsome, -, -⟩ := hrecovered hne
      exact ⟨heq, hsome, hstored, hsynced⟩
    · rw [if_pos herror]
      refine ⟨rfl, ?_, hstored, hsynced⟩
      by_contra hnone
      simp only [Bool.not_eq_true, Option.isSome_eq_false_iff, Option.isNone_iff_eq_none] at hnone
      simp only [Stored, hnone] at hstored
      exact herror hstored.1

variable {delivered : List ℕ}

/-- While a callback is due or running, nothing relies on a synchronization. -/
theorem Boundary.of_due {completed firstFailed firstError : ℕ} {callback : Option CallbackPhase}
    (h : Boundary s) (hdue : ¬ Synced s) : Boundary { s with
      completed := completed
      firstFailed := firstFailed
      firstError := firstError
      callback := callback
      delivered := delivered } := by
  obtain ⟨hbounded, hcount, hsubmitter, hfailure, hrecovered⟩ := h
  refine ⟨hbounded, hcount, ?_, hfailure, fun hne => absurd (hrecovered hne).2.2.2 hdue⟩
  dsimp only
  rcases hp : s.submitter with _ | p
  · rw [hp] at hsubmitter
    exact hsubmitter
  · rw [hp] at hsubmitter
    cases p with
    | recover ticket error => exact absurd hsubmitter.2.2 hdue
    | quiesceRecover => exact absurd hsubmitter.2 hdue
    | _ => exact hsubmitter

theorem Boundary.step (h : Boundary s) (hs : Steps s s') : Boundary s' := by
  have hopen : s.closed = false → s.installFailure = none := by
    intro hclosed
    rcases hf : s.installFailure with _ | ⟨ticket, error⟩
    · rfl
    · exact absurd (h.failure ticket error hf).2.1 (by simp [hclosed])
  cases hs with
  | begin hfree hclosed =>
    obtain ⟨hbounded, hcount, hsubmitter, hfailure, hrecovered⟩ := h
    rw [hfree] at hsubmitter
    rw [Lane.gap, hfree] at hcount
    exact ⟨hbounded, hcount, ⟨hopen hclosed, hsubmitter⟩, hfailure, hrecovered⟩
  | stage staged hp =>
    obtain ⟨hbounded, hcount, hsubmitter, hfailure, hrecovered⟩ := h
    rw [hp] at hsubmitter
    rw [Lane.gap, hp] at hcount
    exact ⟨hbounded, hcount, hsubmitter, hfailure, hrecovered⟩
  | commitEmpty hp =>
    obtain ⟨hbounded, hcount, hsubmitter, hfailure, hrecovered⟩ := h
    rw [hp] at hsubmitter
    rw [Lane.gap, hp] at hcount
    exact ⟨hbounded, hcount, hsubmitter.2, hfailure, hrecovered⟩
  | commit staged hp hmax =>
    obtain ⟨hbounded, hcount, hsubmitter, hfailure, hrecovered⟩ := h
    rw [hp] at hsubmitter
    obtain ⟨hnone, hstored⟩ := hsubmitter
    rw [Lane.gap, hp] at hcount
    simp only [hnone, Option.isSome_none, Bool.false_eq_true, if_false] at hcount
    refine ⟨?_, ?_, ⟨hnone, hstored, rfl⟩, fun ticket error heq => ?_, fun hne => ?_⟩
    · show s.submitted + 1 < noPending
      omega
    · show s.installed + 1 = s.submitted + 1
      omega
    · change s.installFailure = some (ticket, error) at heq
      rw [hnone] at heq
      cases heq
    · simpa [hnone] using (hrecovered hne).2.1
  | submitter p code s' hp hs => exact h.submitterStep hp hs
  | endSubmission hp =>
    obtain ⟨hbounded, hcount, hsubmitter, hfailure, hrecovered⟩ := h
    rw [hp] at hsubmitter
    rw [Lane.gap, hp] at hcount
    exact ⟨hbounded, hcount, hsubmitter, hfailure, hrecovered⟩
  | quiesce hfree =>
    obtain ⟨hbounded, hcount, hsubmitter, hfailure, hrecovered⟩ := h
    rw [hfree] at hsubmitter
    rw [Lane.gap, hfree] at hcount
    exact ⟨hbounded, hcount, hsubmitter, hfailure, hrecovered⟩
  | failAll error hfree =>
    refine ⟨h.bounded, h.count, h.submitter, fun ticket error heq => ?_, h.recovered⟩
    obtain ⟨hticket, -, herror⟩ := h.failure ticket error heq
    exact ⟨hticket, rfl, herror⟩
  | caller i c s' hi hs =>
    obtain ⟨callers, drainer, rfl⟩ := callerStep_frame hs
    exact ⟨h.bounded, h.count, h.submitter, h.failure, h.recovered⟩
  | drainer d s' hd hs =>
    obtain ⟨_, _, _, _, _, _, rfl⟩ := drainerStep_frame hs
    exact ⟨h.bounded, h.count, h.submitter, h.failure, h.recovered⟩
  | deliver status hnone hlt => exact h.of_due fun hsynced => hlt.ne hsynced.1
  | callback p hp =>
    obtain ⟨_, _, _, _, _, heq⟩ := callbackStep_frame s p
    rw [heq]
    refine h.of_due fun hsynced => ?_
    rw [hsynced.2.1] at hp
    cases hp
  | _ => exact ⟨h.bounded, h.count, h.submitter, h.failure, h.recovered⟩

theorem Boundary.installed_le (h : Boundary s) : s.installed ≤ s.submitted := by
  have := h.count
  omega

/-- A ticket whose installation failed has no callback. -/
theorem Boundary.installed_lt (h : Boundary s) (hf : s.installFailure.isSome) :
    s.installed < s.submitted := by
  have hgap : s.gap = 1 := by
    unfold Lane.gap
    split
    · rfl
    · rfl
    · rfl
    · rw [if_pos hf]
  have := h.count
  omega

/-! ## The completion slot -/

/-- The first failed callback among those delivered, in `first_failed` and `first_error`. -/
def Frontier (delivered : List ℕ) (firstFailed firstError : ℕ) : Prop :=
  (∀ st ∈ delivered, st = 0) ∧ firstFailed = noPending ∨
    ∃ l₁ st l₂, delivered = l₁ ++ st :: l₂ ∧ (∀ x ∈ l₁, x = 0) ∧ st ≠ 0 ∧
      firstFailed = l₁.length + 1 ∧ firstError = st

/-- The first device error among the first `ticket` callbacks, or success. -/
def deviceStatus (delivered : List ℕ) (ticket : ℕ) : ℕ :=
  ((delivered.take ticket).find? fun st => st ≠ 0).getD 0

theorem Frontier.status {firstFailed firstError ticket : ℕ}
    (h : Frontier delivered firstFailed firstError) (hticket : ticket < noPending) :
    (if firstFailed ≤ ticket then firstError else 0) = deviceStatus delivered ticket := by
  unfold deviceStatus
  rcases h with ⟨hall, rfl⟩ | ⟨l₁, st, l₂, rfl, hzero, hst, rfl, rfl⟩
  · rw [if_neg (by omega), List.find?_eq_none.mpr]
    · rfl
    · intro x hx
      simpa using hall x (List.mem_of_mem_take hx)
  · by_cases hle : l₁.length + 1 ≤ ticket
    · rw [if_pos hle, List.take_append, List.find?_append, List.find?_eq_none.mpr, Option.none_or]
      · obtain ⟨k, hk⟩ : ∃ k, ticket - l₁.length = k + 1 := ⟨ticket - l₁.length - 1, by omega⟩
        rw [hk, List.take_succ_cons, List.find?_cons_of_pos (by simpa using hst)]
        rfl
      · intro x hx
        simpa using hzero x (List.mem_of_mem_take hx)
    · rw [if_neg hle, List.take_append, List.find?_eq_none.mpr]
      · rfl
      · intro x hx
        rw [show ticket - l₁.length = 0 by omega, List.take_zero, List.append_nil] at hx
        simpa using hzero x (List.mem_of_mem_take hx)

/-- One more callback, after a failed one or with success. -/
theorem Frontier.append {firstFailed firstError status : ℕ}
    (h : Frontier delivered firstFailed firstError)
    (hstatus : ¬ (status ≠ 0 ∧ firstFailed = noPending)) :
    Frontier (delivered ++ [status]) firstFailed firstError := by
  rcases h with ⟨hall, rfl⟩ | ⟨l₁, st, l₂, rfl, hzero, hst, rfl, rfl⟩
  · refine .inl ⟨fun x hx => ?_, rfl⟩
    rcases List.mem_append.mp hx with hx | hx
    · exact hall x hx
    · rw [List.mem_singleton.mp hx]
      by_contra hne
      exact hstatus ⟨hne, rfl⟩
  · exact .inr ⟨l₁, firstError, l₂ ++ [status], by simp, hzero, hst, rfl, rfl⟩

/-- Where the running callback is. -/
def CallbackOk (s : Lane) : Option CallbackPhase → Prop
  | none => Frontier s.delivered s.firstFailed s.firstError
  | some (.check ticket _) => ticket = s.completed + 1 ∧ ticket ≤ s.installed ∧
    Frontier s.delivered s.firstFailed s.firstError
  | some (.storeError ticket status) => ticket = s.completed + 1 ∧ ticket ≤ s.installed ∧
    status ≠ 0 ∧ s.firstFailed = noPending ∧ ∀ st ∈ s.delivered, st = 0
  | some (.storeFailed ticket status) => ticket = s.completed + 1 ∧ ticket ≤ s.installed ∧
    status ≠ 0 ∧ s.firstFailed = noPending ∧ (∀ st ∈ s.delivered, st = 0) ∧
    s.firstError = status
  | some (.storeCompleted ticket status) => ticket = s.completed + 1 ∧ ticket ≤ s.installed ∧
    Frontier (s.delivered ++ [status]) s.firstFailed s.firstError

/-- What the completed callbacks have delivered. -/
structure Device (s : Lane) : Prop where
  length : s.delivered.length = s.completed
  le : s.completed ≤ s.installed
  callback : CallbackOk s s.callback

theorem Device.callbackStep {p : CallbackPhase} (h : Device s) (hb : Boundary s)
    (hp : s.callback = some p) : Device (callbackStep s p) := by
  obtain ⟨hlength, hle, hcallback⟩ := h
  have hbound := hb.bounded
  have hinstalled := hb.installed_le
  rw [hp] at hcallback
  cases p with
  | check ticket status =>
    obtain ⟨hticket, hmax, hfrontier⟩ := hcallback
    simp only [RetireLane.callbackStep]
    split_ifs with hfail
    · refine ⟨hlength, hle, hticket, hmax, hfail.1, hfail.2, ?_⟩
      rcases hfrontier with ⟨hall, -⟩ | ⟨l₁, st, l₂, heq, -, -, hff, -⟩
      · exact hall
      · -- a ticket that failed is not `no_pending_v`
        have hlen := congrArg List.length heq
        rw [List.length_append, List.length_cons] at hlen
        rw [hfail.2] at hff
        omega
    · exact ⟨hlength, hle, hticket, hmax, hfrontier.append hfail⟩
  | storeError ticket status =>
    obtain ⟨hticket, hmax, hst, hff, hall⟩ := hcallback
    exact ⟨hlength, hle, hticket, hmax, hst, hff, hall, rfl⟩
  | storeFailed ticket status =>
    obtain ⟨hticket, hmax, hst, -, hall, herror⟩ := hcallback
    refine ⟨hlength, hle, hticket, hmax, .inr ⟨s.delivered, status, [], rfl, hall, hst, ?_, herror⟩⟩
    rw [hlength, ← hticket]
    rfl
  | storeCompleted ticket status =>
    obtain ⟨hticket, hmax, hfrontier⟩ := hcallback
    refine ⟨?_, hmax, hfrontier⟩
    show (s.delivered ++ [status]).length = ticket
    rw [List.length_append, hlength, hticket]
    rfl

theorem CallbackOk.mono {n : ℕ} (h : CallbackOk s s.callback) (hn : s.installed ≤ n)
    (hc : s'.callback = s.callback) (h1 : s'.completed = s.completed)
    (h2 : s'.firstFailed = s.firstFailed) (h3 : s'.firstError = s.firstError)
    (h4 : s'.delivered = s.delivered) (h5 : s'.installed = n) : CallbackOk s' s'.callback := by
  rw [hc]
  rcases hp : s.callback with _ | p
  · rw [hp] at h
    simp only [CallbackOk, h2, h3, h4]
    exact h
  · rw [hp] at h
    cases p <;> simp only [CallbackOk, h1, h2, h3, h4, h5] at h ⊢ <;>
      exact ⟨h.1, h.2.1.trans hn, h.2.2⟩

/-- The submission side only installs callbacks. -/
theorem submitterStep_device {p : SubmitPhase} {code : ℕ} (hs : submitterStep s code p = some s') :
    s'.callback = s.callback ∧ s'.completed = s.completed ∧ s'.firstFailed = s.firstFailed ∧
      s'.firstError = s.firstError ∧ s'.delivered = s.delivered ∧ s.installed ≤ s'.installed ∧
      s'.drainer = s.drainer ∧ s'.invoked = s.invoked ∧ s'.destroyed = s.destroyed ∧
      s'.activeTicket = s.activeTicket ∧ s'.submitted = s.submitted ∧ s'.nextFn = s.nextFn := by
  cases p <;> simp only [submitterStep] at hs <;> (try split_ifs at hs) <;> cases hs <;> simp

theorem Device.step (h : Device s) (hb : Boundary s) (hs : Steps s s') : Device s' := by
  cases hs with
  | submitter p code s' hp hs =>
    obtain ⟨h1, h2, h3, h4, h5, h6, -⟩ := submitterStep_device hs
    exact ⟨by rw [h5, h2]; exact h.length, by rw [h2]; exact h.le.trans h6,
      h.callback.mono h6 h1 h2 h3 h4 h5 rfl⟩
  | caller i c s' hi hs =>
    obtain ⟨callers, drainer, rfl⟩ := callerStep_frame hs
    exact ⟨h.length, h.le, h.callback.mono le_rfl rfl rfl rfl rfl rfl rfl⟩
  | drainer d s' hd hs =>
    obtain ⟨_, _, _, _, _, _, rfl⟩ := drainerStep_frame hs
    exact ⟨h.length, h.le, h.callback.mono le_rfl rfl rfl rfl rfl rfl rfl⟩
  | deliver status hnone hlt =>
    refine ⟨h.length, h.le, rfl, hlt, ?_⟩
    have hcallback := h.callback
    rw [hnone] at hcallback
    exact hcallback
  | callback p hp => exact h.callbackStep hb hp
  | _ => exact ⟨h.length, h.le, h.callback.mono le_rfl rfl rfl rfl rfl rfl rfl⟩

/-- What the slot says about a boundary that has completed. -/
theorem Device.status (h : Device s) {ticket : ℕ} (hle : ticket ≤ s.completed)
    (hlt : ticket < noPending) :
    (if s.firstFailed ≤ ticket then s.firstError else 0) = deviceStatus s.delivered ticket := by
  obtain ⟨hlength, -, hcallback⟩ := h
  have hclean : (∀ st ∈ s.delivered, st = 0) → s.firstFailed = noPending →
      (if s.firstFailed ≤ ticket then s.firstError else 0) = deviceStatus s.delivered ticket := by
    intro hall hff
    have hfrontier : Frontier s.delivered s.firstFailed s.firstError := .inl ⟨hall, hff⟩
    exact hfrontier.status hlt
  rcases hp : s.callback with _ | p
  · rw [hp] at hcallback
    exact hcallback.status hlt
  · rw [hp] at hcallback
    cases p with
    | check t st => exact hcallback.2.2.status hlt
    | storeError t st => exact hclean hcallback.2.2.2.2 hcallback.2.2.2.1
    | storeFailed t st => exact hclean hcallback.2.2.2.2.1 hcallback.2.2.2.1
    | storeCompleted t st =>
      rw [hcallback.2.2.status hlt]
      unfold deviceStatus
      rw [List.take_append_of_le_length (by omega)]

end Sirius.Exec.RetireLane
