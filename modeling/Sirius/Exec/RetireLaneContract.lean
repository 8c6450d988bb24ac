import Sirius.Exec.RetireLaneQueue

/-!
# The contract of the retire lane

* `Stable`: what a step does not take back.
* `CallerOk`, `DrainerOk`: what a thread has read so far fits the lane and the functions it holds.
* `InvokedOk`: the status that a function got.
* `retire_lane_contract`: the contract, over every run.
-/

namespace Sirius.Exec.RetireLane

open Sirius.Common

/-! ## What has completed -/

/-- What `completed()` returns, read at one moment. -/
def Lane.done (s : Lane) : ℕ := max s.completed s.recovered

variable {s s' : Lane}

theorem Boundary.done_le (h : Boundary s) (hv : Device s) : s.done ≤ s.submitted := by
  refine max_le (hv.le.trans h.installed_le) ?_
  by_cases hzero : s.recovered = 0
  · rw [hzero]
    exact Nat.zero_le _
  · exact (h.recovered hzero).1.le

/-- The last ticket has not completed while it has no callback and nothing was recovered. -/
theorem Boundary.done_lt (h : Boundary s) (hv : Device s) (hgap : s.gap = 1)
    (hzero : s.recovered = 0) : s.done < s.submitted := by
  have hcount := h.count
  have hle := hv.le
  rw [Lane.done, hzero]
  omega

theorem Boundary.recovered_of_open (h : Boundary s) (hnone : s.installFailure = none) :
    s.recovered = 0 := by
  by_contra hne
  simpa [hnone] using (h.recovered hne).2.1

theorem Boundary.recovered_of_callback (h : Boundary s) {p : CallbackPhase}
    (hp : s.callback = some p) : s.recovered = 0 := by
  by_contra hne
  have hnone := (h.recovered hne).2.2.2.2.1
  rw [hp] at hnone
  cases hnone

/-- What a step does not take back of what has completed. -/
structure Stable (s s' : Lane) : Prop where
  completed : s.completed ≤ s'.completed
  recovered : s.recovered ≤ s'.recovered
  pending : ∀ e ∈ s'.pending, e ∈ s.pending ∨ s.done < e.ticket
  reached : ∀ t ≤ s.done, t ≤ s'.completed → t ≤ s.completed
  failed : ∀ t ≤ s.completed, s'.firstFailed ≤ t ↔ s.firstFailed ≤ t
  error : ∀ t ≤ s.completed, s.firstFailed ≤ t → s'.firstError = s.firstError
  install : ∀ t ≤ s.done, t = s'.failedEnqueueTicket →
    t = s.failedEnqueueTicket ∧ s'.enqueueError = s.enqueueError
  delivered : s.delivered <+: s'.delivered
  failure : ∀ t error, s.installFailure = some (t, error) → s'.installFailure = some (t, error)
  noFailure : ∀ t ≤ s.completed, ∀ error, s'.installFailure = some (t, error) →
    s.installFailure = some (t, error)
  synced : ∀ t ≤ s.submitted, t ≤ s.synced → t ≤ s'.synced

theorem Stable.refl (s : Lane) : Stable s s :=
  ⟨le_rfl, le_rfl, fun _ => .inl, fun _ _ => id, fun _ _ => Iff.rfl, fun _ _ _ => rfl,
    fun _ _ h => ⟨h, rfl⟩, List.prefix_rfl, fun _ _ => id, fun _ _ _ => id, fun _ _ => id⟩

theorem Stable.submitterStep {p : SubmitPhase} {code : ℕ} (hb : Boundary s) (hv : Device s)
    (hp : s.submitter = some p) (hs : submitterStep s code p = some s') : Stable s s' := by
  have hr := Stable.refl s
  have hdone := hb.done_le hv
  have hbound := hb.bounded
  have hsubmitter := hb.submitter
  rw [hp] at hsubmitter
  cases p with
  | staging staged => cases hs
  | committed => cases hs
  | splice staged ticket =>
    obtain ⟨hnone, -, rfl⟩ := hsubmitter
    have hlt := hb.done_lt hv (by rw [Lane.gap, hp]) (hb.recovered_of_open hnone)
    simp only [RetireLane.submitterStep] at hs
    split_ifs at hs
    cases hs
    refine { hr with pending := fun e he => ?_ }
    rcases List.mem_append.mp he with he | he
    · exact .inl he
    · obtain ⟨fn, -, rfl⟩ := List.mem_map.mp he
      exact .inr hlt
  | storeHint ticket =>
    cases hs
    exact { hr with }
  | install ticket =>
    obtain ⟨hnone, -, rfl⟩ := hsubmitter
    have hlt := hb.done_lt hv (by rw [Lane.gap, hp]) (hb.recovered_of_open hnone)
    simp only [RetireLane.submitterStep] at hs
    split_ifs at hs with hcode <;> cases hs
    · exact { hr with }
    · refine { hr with failure := fun t error heq => ?_, noFailure := fun t ht error heq => ?_ }
      · rw [hnone] at heq
        cases heq
      · cases heq
        exact absurd (ht.trans (le_max_left _ _)) hlt.not_ge
  | storeError ticket error =>
    cases hs
    refine { hr with install := fun t ht heq => ?_ }
    change t = s.failedEnqueueTicket at heq
    rw [hsubmitter.2.2] at heq
    omega
  | storeTicket ticket error =>
    cases hs
    obtain ⟨hsome, -, hnone⟩ := hsubmitter
    have hticket := (hb.failure _ _ hsome).1
    -- the ticket is not stored yet, so that nothing was recovered
    have hzero : s.recovered = 0 := by
      by_contra hne
      have hstored := (hb.recovered hne).2.2.1
      simp only [Stored, hsome] at hstored
      have := hstored.2
      omega
    have hlt := hb.done_lt hv (by rw [Lane.gap, hp]; simp [hsome]) hzero
    refine { hr with install := fun t ht heq => ?_ }
    change t = ticket at heq
    omega
  | synchronize ticket error =>
    simp only [RetireLane.submitterStep] at hs
    split_ifs at hs <;> cases hs
    · exact { hr with synced := fun t ht _ => ht }
    · exact { hr with }
  | recover ticket error =>
    cases hs
    refine { hr with recovered := ?_ }
    show s.recovered ≤ ticket
    rw [(hb.failure _ _ hsubmitter.1).1]
    exact (le_max_right _ _).trans hdone
  | quiesceSync =>
    simp only [RetireLane.submitterStep] at hs
    split_ifs at hs <;> cases hs
    · exact { hr with synced := fun t ht _ => ht }
    · exact { hr with }
  | quiesceRecover =>
    cases hs
    refine { hr with recovered := ?_ }
    show s.recovered ≤ if s.enqueueError ≠ 0 then s.submitted else s.recovered
    split_ifs
    · exact (le_max_right _ _).trans hdone
    · exact le_rfl

theorem Stable.callbackStep {p : CallbackPhase} (hb : Boundary s) (hv : Device s)
    (hp : s.callback = some p) : Stable s (callbackStep s p) := by
  have hr := Stable.refl s
  have hdone := hb.done_le hv
  have hbound := hb.bounded
  have hcallback := hv.callback
  have hle : s.completed ≤ s.done := le_max_left _ _
  rw [hp] at hcallback
  cases p with
  | check ticket status =>
    simp only [RetireLane.callbackStep]
    split_ifs <;> exact { hr with }
  | storeError ticket status =>
    refine { hr with error := fun t ht hbad => ?_ }
    rw [hcallback.2.2.2.1] at hbad
    omega
  | storeFailed ticket status =>
    refine { hr with failed := fun t ht => ?_, error := fun _ _ _ => rfl }
    show ticket ≤ t ↔ s.firstFailed ≤ t
    rw [hcallback.1, hcallback.2.2.2.1]
    omega
  | storeCompleted ticket status =>
    refine { hr with
      completed := ?_
      reached := fun t ht _ => ?_
      delivered := List.prefix_append _ _ }
    · show s.completed ≤ ticket
      rw [hcallback.1]
      exact Nat.le_succ _
    · rw [Lane.done, hb.recovered_of_callback hp] at ht
      simpa using ht

theorem Steps.stable (hb : Boundary s) (hv : Device s) (hs : Steps s s') : Stable s s' := by
  have hr := Stable.refl s
  cases hs with
  | submitter p code s' hp hs => exact .submitterStep hb hv hp hs
  | caller i c s' hi hs =>
    obtain ⟨callers, drainer, rfl⟩ := callerStep_frame hs
    exact { hr with }
  | drainer d s' hd hs =>
    have hsub : ∀ e ∈ s'.pending, e ∈ s.pending := drainerStep_pending hs
    obtain ⟨_, _, _, _, _, _, rfl⟩ := drainerStep_frame hs
    exact { hr with pending := fun e he => .inl (hsub e he) }
  | callback p hp => exact .callbackStep hb hv hp
  | _ => exact { hr with }

theorem Stable.done (h : Stable s s') : s.done ≤ s'.done :=
  max_le_max h.completed h.recovered

/-! ## Threads before the drainer flag -/

/-- A thread has read at least what had completed when it began, and no more than has completed. -/
def CallerOk (s : Lane) : CallerPhase → Prop
  | .readCompleted goal => goal ≤ s.done
  | .readRecovered goal completed => goal ≤ max completed s.recovered ∧ completed ≤ s.completed
  | .readHint goal done | .claim goal done => goal ≤ done ∧ done ≤ s.done
  | .claimQuiesce | .claimFail _ | .returned => True

theorem CallerOk.stable {c : CallerPhase} (h : CallerOk s c) (hst : Stable s s') :
    CallerOk s' c := by
  cases c with
  | readCompleted goal => exact le_trans h hst.done
  | readRecovered goal completed =>
    exact ⟨h.1.trans (max_le_max le_rfl hst.recovered), h.2.trans hst.completed⟩
  | readHint goal done => exact ⟨h.1, h.2.trans hst.done⟩
  | claim goal done => exact ⟨h.1, h.2.trans hst.done⟩
  | _ => trivial

/-- What a thread becomes. -/
theorem CallerOk.callerStep {i : ℕ} {c : CallerPhase} (h : CallerOk s c)
    (hs : callerStep s i c = some s') : ∃ c', s'.callers = s.callers.set i c' ∧ CallerOk s c' := by
  cases c <;> simp only [RetireLane.callerStep] at hs
  case readCompleted goal =>
    cases hs
    exact ⟨_, rfl, h, le_rfl⟩
  case readRecovered goal completed =>
    cases hs
    exact ⟨_, rfl, h.1, max_le_max h.2 le_rfl⟩
  case readHint goal done =>
    split_ifs at hs <;> cases hs
    · exact ⟨.returned, rfl, trivial⟩
    · exact ⟨_, rfl, h⟩
  case returned => cases hs
  all_goals
    (try split_ifs at hs) <;> cases hs <;> exact ⟨.returned, rfl, trivial⟩

/-- What every caller has read is right. -/
def CallersOk (s : Lane) : Prop := ∀ c ∈ s.callers, CallerOk s c

theorem CallersOk.stable (h : CallersOk s) (hst : Stable s s')
    (hc : ∀ c ∈ s'.callers, c ∈ s.callers ∨ CallerOk s c) : CallersOk s' :=
  fun c hmem => ((hc c hmem).elim (h c) id).stable hst

theorem submitterStep_callers {p : SubmitPhase} {code : ℕ} (hs : submitterStep s code p = some s') :
    ∀ c ∈ s'.callers, c ∈ s.callers ∨ c = .claimQuiesce := by
  cases p <;> simp only [submitterStep] at hs <;> (try split_ifs at hs) <;> cases hs <;>
    intro c hc <;>
    first
    | exact .inl hc
    | exact (List.mem_append.mp hc).imp_right List.mem_singleton.mp

theorem CallersOk.step (h : CallersOk s) (hb : Boundary s) (hv : Device s)
    (hs : Steps s s') : CallersOk s' := by
  have hst := hs.stable hb hv
  cases hs with
  | submitter p code s' hp hs =>
    refine h.stable hst fun c hc => (submitterStep_callers hs c hc).imp_right ?_
    rintro rfl
    trivial
  | quiesceDetached | failAll _ _ =>
    refine h.stable hst fun c hc => (List.mem_append.mp hc).imp_right fun hc => ?_
    rw [List.mem_singleton.mp hc]
    trivial
  | drain =>
    refine h.stable hst fun c hc => (List.mem_append.mp hc).imp_right fun hc => ?_
    rw [List.mem_singleton.mp hc]
    exact le_rfl
  | caller i c s' hi hs =>
    obtain ⟨c', heq, hok⟩ := (h c (List.mem_of_getElem? hi)).callerStep hs
    refine h.stable hst fun c₂ hc => ?_
    rw [heq] at hc
    rcases List.mem_or_eq_of_mem_set hc with hc | rfl
    · exact .inl hc
    · exact .inr hok
  | drainer d s' hd hs =>
    obtain ⟨_, _, _, _, _, _, rfl⟩ := drainerStep_frame hs
    exact h.stable hst fun c hc => .inl hc
  | callback p hp =>
    obtain ⟨_, _, _, _, _, heq⟩ := callbackStep_frame s p
    rw [heq] at hst ⊢
    exact h.stable hst fun c hc => .inl hc
  | _ => exact h.stable hst fun c hc => .inl hc

/-! ## The drainer -/

/-- The first failure, as read, is right for the boundaries that the slot has passed. -/
def BadOk (s : Lane) (batch : List Entry) (bad : ℕ) : Prop :=
  ∀ e ∈ batch, e.ticket ≤ s.completed → (bad ≤ e.ticket ↔ s.firstFailed ≤ e.ticket)

/-- The error that goes with it, as read, is right too. -/
def ErrorOk (s : Lane) (batch : List Entry) (bad deviceError : ℕ) : Prop :=
  ∀ e ∈ batch, e.ticket ≤ s.completed → bad ≤ e.ticket → deviceError = s.firstError

/-- The error of the boundary that failed to install, as read, is right. -/
def InstallOk (s : Lane) (batch : List Entry) (installError : ℕ) : Prop :=
  ∀ e ∈ batch, e.ticket = s.failedEnqueueTicket → installError = s.enqueueError

/-- What the drainer has read so far is right for its batch. -/
def ReadsOk (s : Lane) : DrainPhase → Prop
  | .readError ready bad => BadOk s ready bad
  | .readInstall ready bad deviceError => BadOk s ready bad ∧ ErrorOk s ready bad deviceError
  | .invoke called todo bad deviceError installError => BadOk s (called ++ todo) bad ∧
    ErrorOk s (called ++ todo) bad deviceError ∧ InstallOk s (called ++ todo) installError
  | _ => True

variable {d : Drainer}

theorem ReadsOk.stable (h : ReadsOk s d.phase) (hbatch : ∀ e ∈ d.batch, e.ticket ≤ s.done)
    (hst : Stable s s') : ReadsOk s' d.phase := by
  obtain ⟨goal, done, force, phase⟩ := d
  have hbad : ∀ ready bad, (∀ e ∈ ready, e.ticket ≤ s.done) → BadOk s ready bad →
      BadOk s' ready bad := by
    intro ready bad hready hok e he hle
    have hle₀ := hst.reached _ (hready e he) hle
    rw [hok e he hle₀]
    exact (hst.failed _ hle₀).symm
  have herror : ∀ ready bad error, (∀ e ∈ ready, e.ticket ≤ s.done) → BadOk s ready bad →
      ErrorOk s ready bad error → ErrorOk s' ready bad error := by
    intro ready bad error hready hbad hok e he hle hge
    have hle₀ := hst.reached _ (hready e he) hle
    rw [hok e he hle₀ hge]
    exact (hst.error _ hle₀ ((hbad e he hle₀).mp hge)).symm
  have hinstall : ∀ ready error, (∀ e ∈ ready, e.ticket ≤ s.done) → InstallOk s ready error →
      InstallOk s' ready error := by
    intro ready error hready hok e he heq
    obtain ⟨heq₀, hsame⟩ := hst.install _ (hready e he) heq
    rw [hok e he heq₀, hsame]
  cases phase with
  | readError ready bad => exact hbad ready bad hbatch h
  | readInstall ready bad error =>
    exact ⟨hbad ready bad hbatch h.1, herror ready bad error hbatch h.1 h.2⟩
  | invoke called todo bad error install =>
    exact ⟨hbad _ bad hbatch h.1, herror _ bad error hbatch h.1 h.2.1, hinstall _ _ hbatch h.2.2⟩
  | _ => trivial

/-- The drainer has taken its batch from the queue. -/
def Drainer.taken (d : Drainer) : Prop :=
  match d.phase with
  | .readCompleted | .readRecovered _ | .take => False
  | _ => True

/-- What a drainer of `quiesce` has read before it takes its batch. -/
def QuiesceOk (s : Lane) (goal : ℕ) : DrainPhase → Prop
  | .readCompleted => goal = 0
  | .readRecovered completed => goal = 0 ∧ completed ≤ s.completed
  | _ => True

/-- What holds of the drainer: it has read enough, and took what had completed. -/
structure DrainerOk (s : Lane) (d : Drainer) : Prop where
  goal : d.goal ≤ d.done
  reached : d.done ≤ s.done
  quiesce : QuiesceOk s d.goal d.phase
  rest : d.taken → ∀ e ∈ s.pending, d.done < e.ticket
  batch : ∀ e ∈ d.batch, e.ticket ≤ d.done
  reads : ReadsOk s d.phase

theorem DrainerOk.stable (h : DrainerOk s d) (hst : Stable s s') : DrainerOk s' d := by
  refine ⟨h.goal, h.reached.trans hst.done, ?_, fun ht e he => ?_, h.batch,
    h.reads.stable (fun e he => (h.batch e he).trans h.reached) hst⟩
  · have hquiesce := h.quiesce
    cases hp : d.phase with
    | readCompleted => rwa [hp] at hquiesce
    | readRecovered completed =>
      rw [hp] at hquiesce
      exact ⟨hquiesce.1, hquiesce.2.trans hst.completed⟩
    | _ => trivial
  · rcases hst.pending e he with he | hlt
    · exact h.rest ht e he
    · exact h.reached.trans_lt hlt

/-- The entries that a drainer leaves in the queue have not completed for it. -/
theorem lt_of_mem_dropWhile {pending : List Entry} {done : ℕ}
    (h : pending.Pairwise fun a b => a.ticket ≤ b.ticket) {e : Entry}
    (he : e ∈ pending.dropWhile fun e => e.ticket ≤ done) : done < e.ticket := by
  induction pending with
  | nil => cases he
  | cons first rest ih =>
    obtain ⟨hfirst, hrest⟩ := List.pairwise_cons.mp h
    by_cases hle : first.ticket ≤ done
    · rw [List.dropWhile_cons_of_pos (by simpa using hle)] at he
      exact ih hrest he
    · rw [List.dropWhile_cons_of_neg (by simpa using hle)] at he
      rcases List.mem_cons.mp he with rfl | he
      · omega
      · have := hfirst e he
        omega

theorem DrainerOk.drainerStep (h : DrainerOk s d) (hq : QueueOk s)
    (hs : drainerStep s d = some s') : ∀ d', s'.drainer = some d' → DrainerOk s' d' := by
  obtain ⟨goal, done, force, phase⟩ := d
  obtain ⟨hgoal, hreached, hquiesce, hrest, hbatch, hreads⟩ := h
  intro d' hd'
  cases phase with
  | readCompleted =>
    cases hs
    cases hd'
    exact ⟨hgoal, hreached, ⟨hquiesce, le_rfl⟩, fun ht => ht.elim, hbatch, trivial⟩
  | readRecovered completed =>
    cases hs
    cases hd'
    refine ⟨?_, max_le_max hquiesce.2 le_rfl, trivial, fun ht => ht.elim, by simp [Drainer.batch],
      trivial⟩
    rw [show goal = 0 from hquiesce.1]
    exact Nat.zero_le _
  | take =>
    simp only [RetireLane.drainerStep] at hs
    split_ifs at hs
    cases hs
    cases hd'
    refine ⟨hgoal, hreached, trivial, fun _ e he => ?_, fun e he => ?_, trivial⟩
    · exact lt_of_mem_dropWhile hq.pending_sorted he
    · simpa using List.mem_takeWhile_imp he
  | storeHint ready =>
    cases hs
    cases hd'
    exact ⟨hgoal, hreached, trivial, hrest, hbatch, trivial⟩
  | readFailed ready =>
    cases hs
    cases hd'
    exact ⟨hgoal, hreached, trivial, hrest, hbatch, fun _ _ _ => Iff.rfl⟩
  | readError ready bad =>
    cases hs
    cases hd'
    exact ⟨hgoal, hreached, trivial, hrest, hbatch, hreads, fun _ _ _ _ => rfl⟩
  | readInstall ready bad error =>
    cases hs
    cases hd'
    exact ⟨hgoal, hreached, trivial, hrest, hbatch, hreads.1, hreads.2, fun _ _ _ => rfl⟩
  | invoke called todo bad error install =>
    cases todo with
    | nil =>
      cases hs
      cases hd'
      refine ⟨hgoal, hreached, trivial, hrest, fun e he => hbatch e ?_, trivial⟩
      exact List.mem_append_left _ he
    | cons e todo =>
      cases hs
      cases hd'
      -- the batch is the same list
      have hassoc : called ++ [e] ++ todo = called ++ e :: todo := by simp
      refine ⟨hgoal, hreached, trivial, hrest, ?_, ?_⟩
      · simp only [Drainer.batch, hassoc]
        exact hbatch
      · simp only [ReadsOk, hassoc]
        exact hreads
  | clear ready =>
    cases ready with
    | nil =>
      cases hs
      cases hd'
      exact ⟨hgoal, hreached, trivial, hrest, hbatch, trivial⟩
    | cons e ready =>
      cases hs
      cases hd'
      exact ⟨hgoal, hreached, trivial, hrest, fun x hx => hbatch x (List.mem_cons_of_mem _ hx),
        trivial⟩
  | settle =>
    simp only [RetireLane.drainerStep] at hs
    split_ifs at hs
    cases hs
    cases hd'
    exact ⟨hgoal, hreached, trivial, hrest, hbatch, trivial⟩
  | release =>
    cases hs
    cases hd'

theorem drainerStep_force (hs : drainerStep s d = some s') :
    ∀ d', s'.drainer = some d' → d'.force = d.force := by
  unfold drainerStep at hs
  intro d' hd'
  split at hs <;> (try split_ifs at hs) <;> cases hs <;> cases hd' <;> rfl

/-- `fail_all` reads nothing. -/
def DrainersOk (s : Lane) : Prop := ∀ d, s.drainer = some d → d.force = none → DrainerOk s d

theorem DrainersOk.stable (h : DrainersOk s) (hst : Stable s s')
    (hd : s'.drainer = s.drainer) : DrainersOk s' := by
  intro d hd' hforce
  rw [hd] at hd'
  exact (h d hd' hforce).stable hst

/-- The drainer after a step of a thread before the flag. -/
theorem DrainersOk.callerStep {i : ℕ} {c : CallerPhase} (h : DrainersOk s) (hst : Stable s s')
    (hc : CallerOk s c) (hs : callerStep s i c = some s') : DrainersOk s' := by
  cases c <;> simp only [RetireLane.callerStep] at hs
  case claim goal done =>
    cases hs
    by_cases hd : s.drainer.isSome
    · exact h.stable hst (if_pos hd)
    · intro d' hd' hforce
      simp only [if_neg hd] at hd'
      cases hd'
      exact ⟨hc.1, hc.2, trivial, fun ht => ht.elim, by simp [Drainer.batch], trivial⟩
  case claimQuiesce =>
    split_ifs at hs
    cases hs
    rintro d' hd' -
    cases hd'
    exact ⟨le_rfl, Nat.zero_le _, rfl, fun ht => ht.elim, by simp [Drainer.batch], trivial⟩
  case claimFail error =>
    split_ifs at hs
    cases hs
    intro d' hd' hforce
    cases hd'
    cases hforce
  case returned => cases hs
  all_goals
    (try split_ifs at hs) <;> cases hs <;> exact h.stable hst rfl

theorem DrainersOk.step (h : DrainersOk s) (hb : Boundary s) (hv : Device s) (hq : QueueOk s)
    (hc : CallersOk s) (hs : Steps s s') : DrainersOk s' := by
  have hst := hs.stable hb hv
  cases hs with
  | submitter p code s' hp hs =>
    obtain ⟨-, -, -, -, -, -, hd, -⟩ := submitterStep_device hs
    exact h.stable hst hd
  | caller i c s' hi hs => exact h.callerStep hst (hc c (List.mem_of_getElem? hi)) hs
  | drainer d s' hd hs =>
    intro d' hd' hforce
    rw [drainerStep_force hs d' hd'] at hforce
    exact (h d hd hforce).drainerStep hq hs d' hd'
  | callback p hp =>
    obtain ⟨_, _, _, _, _, heq⟩ := callbackStep_frame s p
    rw [heq] at hst ⊢
    exact h.stable hst rfl
  | _ => exact h.stable hst rfl

/-! ## Statuses -/

/-- A function that was not called by `fail_all`. Either the callback of its boundary was delivered
    and the status is the first device error up to it. Or its callback could not be installed, the
    stream was synchronized afterwards, and the status is the error of the installation. -/
def InvokedOk (s : Lane) (i : Invocation) : Prop :=
  (i.entry.ticket ≤ s.completed ∧ (∀ error, s.installFailure ≠ some (i.entry.ticket, error)) ∧
      i.status = deviceStatus s.delivered i.entry.ticket) ∨
    s.installFailure = some (i.entry.ticket, i.status) ∧ i.entry.ticket ≤ s.synced

theorem InvokedOk.stable {i : Invocation} (h : InvokedOk s i) (hb : Boundary s) (hv : Device s)
    (hst : Stable s s') : InvokedOk s' i := by
  rcases h with ⟨hle, hnone, hstatus⟩ | ⟨hsome, hle⟩
  · refine .inl ⟨hle.trans hst.completed, fun error heq => ?_, ?_⟩
    · exact hnone error (hst.noFailure _ hle error heq)
    · obtain ⟨more, hmore⟩ := hst.delivered
      rw [hstatus, ← hmore, deviceStatus, deviceStatus, List.take_append_of_le_length]
      rw [hv.length]
      exact hle
  · refine .inr ⟨hst.failure _ _ hsome, hst.synced _ ?_ hle⟩
    exact (hb.failure _ _ hsome).1.le

/-- Once the ticket of a failed installation is stored, the error is. -/
theorem SubmitOk.stored {p : Option SubmitPhase} (h : SubmitOk s p)
    (hne : s.failedEnqueueTicket ≠ noPending) : Stored s := by
  rcases p with _ | p
  · exact h
  · cases p with
    | committed => exact h
    | quiesceSync => exact h
    | staging staged => exact h.2
    | splice staged ticket => exact h.2.1
    | storeHint ticket => exact h.2.1
    | install ticket => exact h.2.1
    | storeError ticket error => exact absurd h.2.2 hne
    | storeTicket ticket error => exact absurd h.2.2 hne
    | synchronize ticket error => exact h.2
    | recover ticket error => exact h.2.1
    | quiesceRecover => exact h.1

/-- The status that the drainer computes. -/
theorem DrainerOk.status {e : Entry} {called todo : List Entry} {bad error install : ℕ}
    (h : DrainerOk s d) (hb : Boundary s) (hv : Device s)
    (hp : d.phase = .invoke called (e :: todo) bad error install) (hforce : d.force = none) :
    InvokedOk s ⟨e, statusFor s d e bad error install, false⟩ := by
  have hmem : e ∈ called ++ e :: todo := List.mem_append_right _ List.mem_cons_self
  have hdone : e.ticket ≤ s.done := by
    refine le_trans (h.batch e ?_) h.reached
    rw [Drainer.batch, hp]
    exact hmem
  have hreads := h.reads
  rw [hp] at hreads
  obtain ⟨hbad, herror, hinstall⟩ := hreads
  have hlt : e.ticket < noPending := hdone.trans_lt ((hb.done_le hv).trans_lt hb.bounded)
  -- beyond the slot, the ticket is the one that was recovered
  have hrecovered : s.completed < e.ticket → Stored s ∧ e.ticket = s.submitted ∧ Synced s ∧
      ∃ code, s.installFailure = some (e.ticket, code) := by
    intro hgt
    have hne : s.recovered ≠ 0 := by
      intro hzero
      rw [Lane.done, hzero] at hdone
      omega
    obtain ⟨heq, hsome, hstored, hsynced⟩ := hb.recovered hne
    obtain ⟨⟨ticket, code⟩, hsome⟩ := Option.isSome_iff_exists.mp hsome
    have hticket := (hb.failure _ _ hsome).1
    have hle := hb.done_le hv
    have hcount := hb.count
    have hgap : s.gap ≤ 1 := by
      unfold Lane.gap
      split <;> (try split_ifs) <;> omega
    have hlast : e.ticket = s.submitted := by
      have := hsynced.1
      omega
    exact ⟨hstored, hlast, hsynced, code, by rw [hsome, hticket, hlast]⟩
  simp only [InvokedOk, statusFor, hforce]
  by_cases heq : e.ticket = s.failedEnqueueTicket
  · have hstored := hb.submitter.stored (heq ▸ hlt.ne)
    rw [if_pos heq, hinstall e hmem heq]
    rcases hf : s.installFailure with _ | ⟨ticket, code⟩
    · simp only [Stored, hf] at hstored
      exact absurd (heq.trans hstored.2) hlt.ne
    · simp only [Stored, hf] at hstored
      have hticket : e.ticket = ticket := heq.trans hstored.2
      have hlast : e.ticket = s.submitted := hticket.trans (hb.failure _ _ hf).1
      have hgt : s.completed < e.ticket := by
        have hinstalled := hb.installed_lt (by simp [hf])
        have := hv.le
        omega
      refine .inr ⟨by rw [hticket, hstored.1], ?_⟩
      rw [(hrecovered hgt).2.2.1.2.2, hlast]
  · have hle : e.ticket ≤ s.completed := by
      by_contra hgt
      obtain ⟨hstored, -, -, code, hsome⟩ := hrecovered (not_le.mp hgt)
      simp only [Stored, hsome] at hstored
      exact heq hstored.2.symm
    rw [if_neg heq]
    refine .inl ⟨hle, fun code hsome => ?_, ?_⟩
    · have hlast := (hb.failure _ _ hsome).1
      have hinstalled := hb.installed_lt (by simp [hsome])
      have := hv.le
      omega
    · rw [← hv.status hle hlt]
      by_cases hge : bad ≤ e.ticket
      · rw [if_pos hge, if_pos ((hbad e hmem hle).mp hge), herror e hmem hle hge]
      · rw [if_neg hge, if_neg (mt (hbad e hmem hle).mpr hge)]

/-- Every call that was not forced got the status of its boundary. -/
def InvocationsOk (s : Lane) : Prop := ∀ i ∈ s.invoked, i.forced = false → InvokedOk s i

theorem InvocationsOk.stable (h : InvocationsOk s) (hb : Boundary s) (hv : Device s)
    (hst : Stable s s') (hi : s'.invoked = s.invoked) : InvocationsOk s' := by
  intro i hmem hforced
  rw [hi] at hmem
  exact (h i hmem hforced).stable hb hv hst

theorem InvocationsOk.drainerStep (h : InvocationsOk s)
    (hb : Boundary s) (hv : Device s) (hst : Stable s s') (hok : d.force = none → DrainerOk s d)
    (hs : drainerStep s d = some s') : InvocationsOk s' := by
  obtain ⟨goal, done, force, phase⟩ := d
  cases phase with
  | invoke called todo bad error install =>
    cases todo with
    | nil =>
      cases hs
      exact h.stable hb hv hst rfl
    | cons e todo =>
      cases hs
      intro i hi hforced
      rcases List.mem_append.mp hi with hi | hi
      · exact (h i hi hforced).stable hb hv hst
      · rw [List.mem_singleton.mp hi] at hforced ⊢
        have hforce : force = none := by simpa using hforced
        subst hforce
        exact ((hok rfl).status hb hv rfl rfl).stable hb hv hst
  | clear ready =>
    cases ready <;> (cases hs; exact h.stable hb hv hst rfl)
  | take | settle =>
    simp only [RetireLane.drainerStep] at hs
    split_ifs at hs
    cases hs
    exact h.stable hb hv hst rfl
  | _ =>
    cases hs
    exact h.stable hb hv hst rfl

theorem InvocationsOk.step (h : InvocationsOk s) (hb : Boundary s) (hv : Device s)
    (hd : DrainersOk s) (hs : Steps s s') : InvocationsOk s' := by
  have hst := hs.stable hb hv
  cases hs with
  | submitter p code s' hp hs =>
    obtain ⟨-, -, -, -, -, -, -, hi, -⟩ := submitterStep_device hs
    exact h.stable hb hv hst hi
  | caller i c s' hi hs =>
    obtain ⟨callers, drainer, rfl⟩ := callerStep_frame hs
    exact h.stable hb hv hst rfl
  | drainer d s' hdr hs => exact h.drainerStep hb hv hst (hd d hdr) hs
  | callback p hp =>
    obtain ⟨_, _, _, _, _, heq⟩ := callbackStep_frame s p
    rw [heq] at hst ⊢
    exact h.stable hb hv hst rfl
  | _ => exact h.stable hb hv hst rfl

/-! ## The contract -/

/-- What every step keeps. -/
structure Inv (s : Lane) : Prop where
  boundary : Boundary s
  device : Device s
  queue : QueueOk s
  hint : HintOk s
  callers : CallersOk s
  drainers : DrainersOk s
  invocations : InvocationsOk s

theorem Inv.init : Inv {} where
  boundary := ⟨by decide, rfl, ⟨rfl, rfl⟩, nofun, fun h => absurd rfl h⟩
  device := ⟨rfl, le_rfl, .inl ⟨nofun, rfl⟩⟩
  queue := ⟨rfl, rfl, .nil, nofun, .nil, nofun, fun h => absurd rfl h⟩
  hint := nofun
  callers := nofun
  drainers := nofun
  invocations := nofun

theorem Inv.step {a : Action} (h : Inv s) (hs : RetireLane.step s a = some s') : Inv s' := by
  obtain ⟨hb, hv, hq, hh, hc, hd, hi⟩ := h
  have hsteps := steps_of_step hs
  exact ⟨hb.step hsteps, hv.step hb hsteps, hq.step hb hsteps, hh.step hq hsteps,
    hc.step hb hv hsteps, hd.step hb hv hq hc hsteps, hi.step hb hv hd hsteps⟩

/-- The functions up to a boundary are retired: called, and their captures destroyed. -/
def RetiredUpTo (s : Lane) (goal : ℕ) : Prop :=
  ∀ e ∈ s.committed, e.ticket ≤ goal → e ∈ s.destroyed

/-- The contract, in a state. -/
structure Contract (s : Lane) : Prop where
  /-- At most once. -/
  once : (s.invoked.map fun i => i.entry.fn).Nodup
  /-- In commit order. -/
  order : s.invoked.map Invocation.entry <+: s.committed
  /-- Captures go away after the call. -/
  destroyed : s.destroyed <+: s.invoked.map Invocation.entry
  idle : s.idle = true → s.destroyed = s.committed
  invoked : ∀ i ∈ s.invoked, i.forced = false → InvokedOk s i
  /-- A drain that returns at the hint while nobody drains. -/
  hint : ∀ goal done, CallerPhase.readHint goal done ∈ s.callers → done < s.oldestHint → s.drainer = none →
    RetiredUpTo s goal
  /-- A drain that claimed the flag, when it releases it. -/
  release : ∀ d, s.drainer = some d → d.force = none → d.phase = .release → RetiredUpTo s d.goal

theorem QueueOk.called_prefix : s.called <+: s.batch := by
  unfold Lane.called Lane.batch
  rcases s.drainer with _ | ⟨goal, done, force, phase⟩
  · exact List.prefix_rfl
  · cases phase with
    | invoke called todo bad error install => exact List.prefix_append _ _
    | clear ready => exact List.prefix_rfl
    | _ => exact List.nil_prefix

/-- An idle lane holds no function. -/
theorem QueueOk.idle (h : QueueOk s) (hb : Boundary s) (hidle : s.idle = true) :
    s.destroyed = s.committed := by
  simp only [Lane.idle, decide_eq_true_eq] at hidle
  have hactive : noPending ≤ s.activeTicket := hidle ▸ min_le_left _ _
  have hfront : noPending ≤ frontTicket s.pending := hidle ▸ min_le_right _ _
  have hpending : s.pending = [] := by
    by_contra hne
    obtain ⟨e, rest, heq⟩ := List.exists_cons_of_ne_nil hne
    have hle := (h.tickets e (h.mem_pending (heq ▸ List.mem_cons_self))).1
    rw [heq] at hfront
    have hbound := hb.bounded
    change noPending ≤ e.ticket at hfront
    omega
  have hbatch : s.batch = [] := by
    by_contra hne
    exact absurd hactive (h.active hne).not_ge
  rw [h.split, hbatch, hpending]
  simp

/-- A function whose batch is gone is retired or still queued. -/
theorem QueueOk.retired (h : QueueOk s) {goal : ℕ} (hbatch : s.batch = [])
    (hpending : ∀ e ∈ s.pending, goal < e.ticket) : RetiredUpTo s goal := by
  intro e he hle
  rw [h.split, hbatch, List.nil_append] at he
  rcases List.mem_append.mp he with he | he
  · exact he
  · exact absurd hle (hpending e he).not_ge

theorem Inv.contract (h : Inv s) : Contract s := by
  obtain ⟨hb, hv, hq, hh, hc, hd, hi⟩ := h
  have horder : s.invoked.map Invocation.entry <+: s.committed := by
    rw [hq.calls, hq.split]
    refine (List.prefix_append_right_inj _).mpr ?_
    exact QueueOk.called_prefix.trans (List.prefix_append _ _)
  refine ⟨?_, horder, ?_, hq.idle hb, hi, ?_, ?_⟩
  · have hnodup : (s.committed.map Entry.fn).Nodup := (List.nodup_append.mp hq.fns).1
    have hmap := hnodup.sublist (horder.map Entry.fn).sublist
    rwa [List.map_map] at hmap
  · rw [hq.calls]
    exact List.prefix_append _ _
  · intro goal done hmem hlt hnone
    obtain ⟨hgoal, hreached⟩ := hc _ hmem
    refine hq.retired (by rw [Lane.batch, hnone]; rfl) fun e he => ?_
    rcases hh e he with hle | hsub
    · omega
    · -- a function that was spliced in just now has no callback yet
      have hok := hb.submitter
      rw [hsub] at hok
      have hlast := hb.done_lt hv (by rw [Lane.gap, hsub]) (hb.recovered_of_open hok.1)
      have := hok.2.2
      omega
  · intro d hdr hforce hphase
    have hok := hd d hdr hforce
    refine hq.retired (by simp [Lane.batch, hdr, Drainer.batch, hphase]) fun e he => ?_
    exact hok.goal.trans_lt (hok.rest (by simp [Drainer.taken, hphase]) e he)

/-- **The contract of the retire lane, over every interleaving.** Functions are called at most
    once, in commit order, and a lane is idle when their captures are destroyed. Outside
    `fail_all` a function is called after the callback of its boundary or a synchronization, with
    the status of that boundary, and a drain that finds no drainer retires all that had
    completed. -/
theorem retire_lane_contract (trace : List Action) (s : Lane) (h : run step {} trace = some s) :
    Contract s :=
  (run_invariant (fun _ _ _ hi hs => hi.step hs) Inv.init h).contract

/-- Two functions behind a callback with error 7, and one whose callback is refused with error 5. A
    drain then takes all three, up to the release of the flag. -/
def threeFunctions : List Action :=
  [.begin, .stage, .stage, .commit, .submitter 0, .submitter 0, .submitter 0, .endSubmission,
    .deliver 7, .callback, .callback, .callback, .callback,
    .begin, .stage, .commit, .submitter 0, .submitter 0, .submitter 5, .submitter 0, .submitter 0,
    .submitter 0, .submitter 0, .endSubmission,
    .drain, .caller 0, .caller 0, .caller 0, .caller 0,
    .drainer, .drainer, .drainer, .drainer, .drainer, .drainer, .drainer, .drainer, .drainer,
    .drainer, .drainer, .drainer, .drainer, .drainer]

/-- The lane after them. -/
def afterThreeFunctions : Lane where
  completed := 1
  firstFailed := 1
  firstError := 7
  submitted := 2
  closed := true
  enqueueError := 5
  failedEnqueueTicket := 2
  recovered := 2
  drainer := some ⟨2, 2, none, .release⟩
  callers := [.returned]
  installed := 1
  delivered := [7]
  synced := 2
  installFailure := some (2, 5)
  nextFn := 3
  committed := [⟨1, 0⟩, ⟨1, 1⟩, ⟨2, 2⟩]
  invoked := [⟨⟨1, 0⟩, 7, false⟩, ⟨⟨1, 1⟩, 7, false⟩, ⟨⟨2, 2⟩, 5, false⟩]
  destroyed := [⟨1, 0⟩, ⟨1, 1⟩, ⟨2, 2⟩]

theorem three_functions_contract :
    run step {} threeFunctions = some afterThreeFunctions ∧ Contract afterThreeFunctions := by
  have hrun : run step {} threeFunctions = some afterThreeFunctions := by decide +kernel
  exact ⟨hrun, retire_lane_contract threeFunctions afterThreeFunctions hrun⟩

end Sirius.Exec.RetireLane
