import Sirius.Exec.QueryLifecycle

/-!
# Failures and wake-ups of the query lifecycle registry

The registry with the threads that `report_failure` and the waits are made of. A wait whose
predicate is false sleeps on the condition variable of its block. A release decides under the mutex
of the block whether it will notify, and notifies after it has left the mutex.

* `Watched`: the registry, the sleeping waits and the notifications that are due.
* `failure_is_final_and_no_wakeup_is_lost`: after a fatal report has returned no gate is open, and a
  wait that sleeps on a true predicate has a notification due.
-/

namespace Sirius.Exec.Registry

open Sirius.Common

/-! ## Waits and notifications -/

/-- The predicates of the two waits (lines 390, 402 and 413). -/
def waitDone (c : Control) : Call → Bool
  | .waitForSubmissions => c.submissions = 0
  | .waitForWork => c.idle
  | _ => true

def isWait : Call → Bool
  | .waitForSubmissions | .waitForWork => true
  | _ => false

/-- Whether `submission_guard::finish` notifies (line 197), with the counters it leaves. -/
def finishNotifies (c : Control) : Bool := c.state = .quiescing && c.submissions = 0

/-- Whether `work_lease::reset` notifies (lines 127 and 128). -/
def resetNotifies (c : Control) : Bool := c.state = .quiescing && c.work = 0 && c.submissions = 0

/-- The registry; the calls of `report_failure` that have latched the failure and not begun to sweep,
    whether the sweep in progress is one of theirs, and whether one has returned; the waits that
    sleep; and the blocks with a `notify_all` that is due. -/
structure Watched where
  registry : Registry := {}
  reports : ℕ := 0
  reportSweep : Bool := false
  reported : Bool := false
  asleep : List (Call × ℕ) := []
  notices : List ℕ := []

namespace Watched

/-- What an action of the registry leaves to do. -/
def after (w : Watched) (a : Action) (r : Registry) : Watched :=
  match a with
  | .reportFailure => { w with registry := r, reports := w.reports + 1 }
  | .startSweep _ => { w with registry := r, reportSweep := false }
  | .advance =>
    if r.sweep.isNone then
      { w with registry := r, reportSweep := false, reported := w.reported || w.reportSweep }
    else { w with registry := r }
  | .finish g =>
    if finishNotifies (r.controls g.control) then
      { w with registry := r, notices := g.control :: w.notices }
    else { w with registry := r }
  | .resetLease c =>
    if resetNotifies (r.controls c) then { w with registry := r, notices := c :: w.notices }
    else { w with registry := r }
  | _ => { w with registry := r }

/-- `base` is an action of the registry, `sweepReport` the `quiesce_all` of a `report_failure`,
    `quiesceAndWait` the first half of `quiesce_and_wait_for_submissions`, and `wake` a spurious
    wake-up. -/
inductive Act where
  | base (a : Action)
  | sweepReport
  | quiesceAndWait (c : ℕ)
  | park (call : Call) (c : ℕ)
  | wake (call : Call) (c : ℕ)
  | notify (c : ℕ)
  deriving DecidableEq, Repr

/-- A step of the registry, of a sweep or of a waiter. -/
def step (w : Watched) : Act → Option Watched
  | .base a => (w.registry.step a).map (w.after a)
  | .sweepReport =>
    if w.reports = 0 then none
    else (w.registry.step (.startSweep false)).map fun r =>
      { w with registry := r, reports := w.reports - 1, reportSweep := true }
  | .quiesceAndWait c =>
    if (.quiesce, c) ∈ w.registry.pending then
      let r := w.registry.update c mark
      some { w with registry := { r with
        pending := (.waitForSubmissions, c) :: r.pending.erase (.quiesce, c) } }
    else none
  | .park call c =>
    let control := w.registry.controls c
    if (call, c) ∈ w.registry.pending ∧ isWait call ∧ control.state = .quiescing ∧
        waitDone control call = false then
      some { w with
        registry := { w.registry with pending := w.registry.pending.erase (call, c) }
        asleep := (call, c) :: w.asleep }
    else none
  | .wake call c =>
    if (call, c) ∈ w.asleep then
      some { w with
        registry := { w.registry with pending := (call, c) :: w.registry.pending }
        asleep := w.asleep.erase (call, c) }
    else none
  | .notify c =>
    if c ∈ w.notices then
      some { w with
        registry := { w.registry with
          pending := w.asleep.filter (fun e => e.2 = c) ++ w.registry.pending }
        asleep := w.asleep.filter fun e => e.2 ≠ c
        notices := w.notices.erase c }
    else none

end Watched

/-! ## Steps of the registry -/

variable {s s' : Registry} {c : ℕ}

/-- An update of a block that keeps its counters. -/
theorem update_counters {f : Control → Control} {d : ℕ}
    (hf : ∀ x : Control, (f x).submissions = x.submissions ∧ (f x).work = x.work) :
    ((s.update c f).controls d).submissions = (s.controls d).submissions ∧
      ((s.update c f).controls d).work = (s.controls d).work := by
  by_cases hdc : d = c
  · subst hdc
    simpa [update] using hf (s.controls d)
  · simp [update, Function.update_of_ne hdc]

/-- A call on a block leaves the counters of a closed block alone. -/
theorem perform_counters {call : Call} (hstep : s.perform call c = some s') {d : ℕ}
    (hq : (s.controls d).state = .quiescing) :
    (s'.controls d).submissions = (s.controls d).submissions ∧
      (s'.controls d).work = (s.controls d).work := by
  -- an open block is another one
  have hother : ∀ {f : Control → Control}, (s.controls c).state = .opened →
      ((s.update c f).controls d).submissions = (s.controls d).submissions ∧
        ((s.update c f).controls d).work = (s.controls d).work := by
    intro f hopen
    have hdc : d ≠ c := by
      rintro rfl
      rw [hq] at hopen
      cases hopen
    simp [update, Function.update_of_ne hdc]
  cases call <;> simp only [perform] at hstep
  case tryBeginSubmission =>
    split_ifs at hstep with hopen <;> cases hstep
    · dsimp only
      exact hother hopen
    · exact ⟨rfl, rfl⟩
  case tryAcquireWork =>
    split_ifs at hstep with hopen <;> cases hstep
    · dsimp only
      exact hother hopen
    · exact ⟨rfl, rfl⟩
  case quiesce =>
    cases hstep
    exact update_counters fun _ => ⟨rfl, rfl⟩
  case waitForSubmissions =>
    split_ifs at hstep
    cases hstep
    exact ⟨rfl, rfl⟩
  case waitForWork =>
    split_ifs at hstep
    cases hstep
    exact ⟨rfl, rfl⟩
  case retainResources =>
    split_ifs at hstep <;> cases hstep
    · exact update_counters fun _ => ⟨rfl, rfl⟩
    · exact ⟨rfl, rfl⟩
  case releaseResources =>
    split_ifs at hstep <;> cases hstep
    · exact update_counters fun _ => ⟨rfl, rfl⟩
    · exact ⟨rfl, rfl⟩

/-- A step that is no release leaves the counters of a closed block alone. -/
theorem Inv.counters_of_step (h : s.Inv) {a : Action} (hstep : s.step a = some s') {d : ℕ}
    (hq : (s.controls d).state = .quiescing) (hfinish : ∀ g, a ≠ .finish g)
    (hreset : ∀ c, a ≠ .resetLease c) :
    (s'.controls d).submissions = (s.controls d).submissions ∧
      (s'.controls d).work = (s.controls d).work := by
  cases a with
  | openQuery id =>
    simp only [Registry.step, Option.ite_none_right_eq_some, Option.some.injEq] at hstep
    obtain ⟨-, rfl⟩ := hstep
    unfold Registry.openQuery
    split_ifs
    · exact ⟨rfl, rfl⟩
    · dsimp only
      rw [h.update_made]
      exact ⟨rfl, rfl⟩
  | find call id =>
    simp only [Registry.step, Option.ite_none_right_eq_some, Option.some.injEq] at hstep
    obtain ⟨-, rfl⟩ := hstep
    unfold Registry.find
    split <;> exact ⟨rfl, rfl⟩
  | close id =>
    simp only [Registry.step, Option.ite_none_right_eq_some, Option.some.injEq] at hstep
    obtain ⟨-, rfl⟩ := hstep
    unfold Registry.close
    split
    · exact ⟨rfl, rfl⟩
    · next c hid =>
      split_ifs
      · dsimp only
        exact update_counters fun _ => ⟨rfl, rfl⟩
      · exact ⟨rfl, rfl⟩
  | reportFailure | startSweep _ =>
    simp only [Registry.step, Option.ite_none_right_eq_some, Option.some.injEq] at hstep
    obtain ⟨-, rfl⟩ := hstep
    exact ⟨rfl, rfl⟩
  | advance =>
    simp only [Registry.step, Registry.advance] at hstep
    split at hstep
    · cases hstep
    · cases hstep
      dsimp only
      exact update_counters fun _ => ⟨rfl, rfl⟩
    · cases hstep
      exact ⟨rfl, rfl⟩
    · cases hstep
      exact ⟨rfl, rfl⟩
    · split_ifs at hstep <;> cases hstep <;> exact ⟨rfl, rfl⟩
    · cases hstep
      dsimp only
      split_ifs <;> exact ⟨rfl, rfl⟩
  | perform call c =>
    simp only [Registry.step, Option.ite_none_right_eq_some] at hstep
    obtain ⟨-, hstep⟩ := hstep
    have hq' : (({ s with pending := s.pending.erase (call, c) } : Registry).controls d).state =
        .quiescing := hq
    exact perform_counters hstep hq'
  | takeWorkLease g =>
    simp only [Registry.step, Option.ite_none_right_eq_some, Option.some.injEq] at hstep
    obtain ⟨-, rfl⟩ := hstep
    unfold Registry.takeWorkLease
    split_ifs <;> exact ⟨rfl, rfl⟩
  | finish g => exact absurd rfl (hfinish g)
  | resetLease c => exact absurd rfl (hreset c)

/-- **A wait becomes true only in a step that notifies.** -/
theorem Inv.notifies_of_step (h : s.Inv) {a : Action} (hstep : s.step a = some s') {d : ℕ}
    {call : Call} (hq : (s.controls d).state = .quiescing)
    (hfalse : waitDone (s.controls d) call = false) (htrue : waitDone (s'.controls d) call = true) :
    (∃ g, a = .finish g ∧ g.control = d ∧ finishNotifies (s'.controls d) = true) ∨
      a = .resetLease d ∧ resetNotifies (s'.controls d) = true := by
  have hq' := (h.step hstep).2.closed d hq
  have hcounters : ¬ ((s'.controls d).submissions = (s.controls d).submissions ∧
      (s'.controls d).work = (s.controls d).work) := by
    rintro ⟨hsub, hwork⟩
    have hsame : waitDone (s'.controls d) call = waitDone (s.controls d) call := by
      cases call <;> simp [waitDone, Control.idle, hsub, hwork]
    rw [hsame, hfalse] at htrue
    cases htrue
  by_cases hfinish : ∃ g, a = .finish g
  · obtain ⟨g, rfl⟩ := hfinish
    simp only [Registry.step, Option.ite_none_right_eq_some, Option.some.injEq] at hstep
    obtain ⟨-, rfl⟩ := hstep
    have hd : g.control = d := by
      by_contra hne
      exact hcounters (by simp [Registry.finish, update, Function.update_of_ne (Ne.symm hne)])
    refine .inl ⟨g, rfl, hd, ?_⟩
    have hzero : ((s.finish g).controls d).submissions = 0 := by
      cases call with
      | waitForSubmissions => simpa [waitDone] using htrue
      | waitForWork => exact (idle_eq_true.mp htrue).1
      | _ => cases hfalse
    simp [finishNotifies, hq', hzero]
  · by_cases hreset : ∃ c, a = .resetLease c
    · obtain ⟨c, rfl⟩ := hreset
      simp only [Registry.step, Option.ite_none_right_eq_some, Option.some.injEq] at hstep
      obtain ⟨-, rfl⟩ := hstep
      have hd : c = d := by
        by_contra hne
        exact hcounters (by simp [Registry.resetLease, update, Function.update_of_ne (Ne.symm hne)])
      subst hd
      refine .inr ⟨rfl, ?_⟩
      cases call with
      | waitForSubmissions =>
        -- a lease does not count as a submission
        have hsame : ((s.resetLease c).controls c).submissions = (s.controls c).submissions := by
          simp [Registry.resetLease, update]
        simp only [waitDone, hsame] at hfalse htrue
        rw [hfalse] at htrue
        cases htrue
      | waitForWork =>
        obtain ⟨hsub, hwork⟩ := idle_eq_true.mp htrue
        simp [resetNotifies, hq', hsub, hwork]
      | _ => cases hfalse
    · exact absurd (h.counters_of_step hstep hq (fun g hg => hfinish ⟨g, hg⟩)
        fun c hc => hreset ⟨c, hc⟩) hcounters

/-- After a failure no query is opened. -/
theorem failed_of_step {a : Action} (hstep : s.step a = some s') (hf : s.runtimeFailed = true) :
    s'.runtimeFailed = true ∧ ∀ c ∈ s'.registered, c ∈ s.registered := by
  cases a with
  | openQuery id =>
    simp only [Registry.step, Option.ite_none_right_eq_some, Option.some.injEq] at hstep
    obtain ⟨-, rfl⟩ := hstep
    unfold Registry.openQuery
    rw [hf, Bool.true_or, if_pos rfl]
    exact ⟨hf, fun _ hc => hc⟩
  | find call id =>
    simp only [Registry.step, Option.ite_none_right_eq_some, Option.some.injEq] at hstep
    obtain ⟨-, rfl⟩ := hstep
    unfold Registry.find
    split <;> exact ⟨hf, fun _ hc => hc⟩
  | close id =>
    simp only [Registry.step, Option.ite_none_right_eq_some, Option.some.injEq] at hstep
    obtain ⟨-, rfl⟩ := hstep
    unfold Registry.close
    split
    · exact ⟨hf, fun _ hc => hc⟩
    · split_ifs
      · refine ⟨hf, fun c hc => ?_⟩
        obtain ⟨e, he, rfl⟩ := List.mem_map.mp hc
        exact List.mem_map.mpr ⟨e, (List.kerase_sublist _ _).subset he, rfl⟩
      · exact ⟨hf, fun _ hc => hc⟩
  | reportFailure =>
    simp only [Registry.step, Option.ite_none_right_eq_some, Option.some.injEq] at hstep
    obtain ⟨-, rfl⟩ := hstep
    exact ⟨rfl, fun _ hc => hc⟩
  | startSweep clearing =>
    simp only [Registry.step, Option.ite_none_right_eq_some, Option.some.injEq] at hstep
    obtain ⟨-, rfl⟩ := hstep
    exact ⟨hf, fun _ hc => hc⟩
  | advance =>
    simp only [Registry.step, Registry.advance] at hstep
    split at hstep
    · cases hstep
    · cases hstep
      exact ⟨hf, fun _ hc => hc⟩
    · cases hstep
      exact ⟨hf, fun _ hc => hc⟩
    · cases hstep
      exact ⟨hf, fun _ hc => hc⟩
    · split_ifs at hstep <;> cases hstep <;> exact ⟨hf, fun _ hc => hc⟩
    · cases hstep
      exact ⟨hf, fun _ hc => by cases hc⟩
  | perform call c =>
    simp only [Registry.step, Option.ite_none_right_eq_some] at hstep
    obtain ⟨-, hstep⟩ := hstep
    cases call <;> simp only [perform] at hstep <;> (try split_ifs at hstep) <;> cases hstep <;>
      exact ⟨hf, fun _ hc => hc⟩
  | takeWorkLease g =>
    simp only [Registry.step, Option.ite_none_right_eq_some, Option.some.injEq] at hstep
    obtain ⟨-, rfl⟩ := hstep
    unfold Registry.takeWorkLease
    split_ifs <;> exact ⟨hf, fun _ hc => hc⟩
  | finish _ | resetLease _ =>
    simp only [Registry.step, Option.ite_none_right_eq_some, Option.some.injEq] at hstep
    obtain ⟨-, rfl⟩ := hstep
    exact ⟨hf, fun _ hc => hc⟩

/-- The blocks that a sweep has passed are closed. -/
def Swept (s : Registry) : Prop :=
  ∃ todo, s.sweep = some (.marking false todo) ∧
    ∀ c ∈ s.registered, c ∈ todo ∨ (s.controls c).state = .quiescing

/-- A sweep of `quiesce_all` goes on, or has closed every gate. -/
theorem Inv.swept_of_step (h : s.Inv) {a : Action} (hstep : s.step a = some s')
    (hf : s.runtimeFailed = true) (hswept : s.Swept) :
    s'.Swept ∨ a = .advance ∧ s'.sweep = none ∧
      ∀ c ∈ s'.registered, (s'.controls c).state = .quiescing := by
  obtain ⟨todo, hsweep, hmarked⟩ := hswept
  have hclosed := (h.step hstep).2.closed
  have hsub := (failed_of_step hstep hf).2
  have hgoes : s'.sweep = s.sweep → s'.Swept := fun hsame =>
    ⟨todo, hsame.trans hsweep, fun c hc => (hmarked c (hsub c hc)).imp_right (hclosed c)⟩
  cases a with
  | advance =>
    simp only [Registry.step, Registry.advance, hsweep] at hstep
    rcases todo with _ | ⟨c, todo⟩
    · cases hstep
      exact .inr ⟨rfl, rfl, fun c hc => (hmarked c hc).resolve_left (by simp)⟩
    · cases hstep
      refine .inl ⟨todo, rfl, fun d hd => ?_⟩
      rcases hmarked d hd with hd | hd
      · rcases List.mem_cons.mp hd with rfl | hd
        · exact .inr (by simp [update, mark])
        · exact .inl hd
      · exact .inr (hclosed d hd)
  | perform call c =>
    simp only [Registry.step, Option.ite_none_right_eq_some] at hstep
    obtain ⟨-, hstep⟩ := hstep
    refine .inl (hgoes ?_)
    cases call <;> simp only [perform] at hstep <;> (try split_ifs at hstep) <;> cases hstep <;> rfl
  | takeWorkLease g =>
    simp only [Registry.step, Option.ite_none_right_eq_some, Option.some.injEq] at hstep
    obtain ⟨-, rfl⟩ := hstep
    refine .inl (hgoes ?_)
    unfold Registry.takeWorkLease
    split_ifs <;> rfl
  | finish _ | resetLease _ =>
    simp only [Registry.step, Option.ite_none_right_eq_some, Option.some.injEq] at hstep
    obtain ⟨-, rfl⟩ := hstep
    exact .inl (hgoes rfl)
  | _ =>
    -- the sweep holds the mutex of the registry
    simp [Registry.step, hsweep] at hstep

/-! ## The invariant -/

namespace Watched

variable {w w' : Watched}

/-- A call sleeps only while it has to, or a notice is on its way. -/
structure Inv (w : Watched) : Prop where
  registry : w.registry.Inv
  asleep : ∀ e ∈ w.asleep, (w.registry.controls e.2).state = .quiescing ∧
    (waitDone (w.registry.controls e.2) e.1 = true → e.2 ∈ w.notices)
  reports : w.reports ≠ 0 → w.registry.runtimeFailed = true
  sweep : w.reportSweep = true → w.registry.runtimeFailed = true ∧ w.registry.Swept
  reported : w.reported = true → w.registry.runtimeFailed = true ∧
    ∀ c ∈ w.registry.registered, (w.registry.controls c).state = .quiescing

theorem inv_init : Inv {} where
  registry := Registry.inv_init
  asleep := nofun
  reports := fun h => absurd rfl h
  sweep := nofun
  reported := nofun

/-- An action of the registry keeps its part of the record. -/
theorem after_registry (a : Action) (r : Registry) : (w.after a r).registry = r := by
  unfold after
  split <;> (try split_ifs) <;> rfl

theorem after_asleep (a : Action) (r : Registry) : (w.after a r).asleep = w.asleep := by
  unfold after
  split <;> (try split_ifs) <;> rfl

theorem notices_subset_after (a : Action) (r : Registry) {c : ℕ} (hc : c ∈ w.notices) :
    c ∈ (w.after a r).notices := by
  unfold after
  split <;> (try split_ifs) <;> first | exact hc | exact List.mem_cons_of_mem _ hc

/-- A release that notifies has a notification due. -/
theorem mem_notices_after {a : Action} {r : Registry} {d : ℕ}
    (h : (∃ g, a = .finish g ∧ g.control = d ∧ finishNotifies (r.controls d) = true) ∨
      a = .resetLease d ∧ resetNotifies (r.controls d) = true) :
    d ∈ (w.after a r).notices := by
  rcases h with ⟨g, rfl, rfl, hn⟩ | ⟨rfl, hn⟩
  · simp [after, hn]
  · simp [after, hn]

theorem Inv.asleep_after (h : w.Inv) {a : Action} {r : Registry}
    (hstep : w.registry.step a = some r) :
    ∀ e ∈ (w.after a r).asleep, (r.controls e.2).state = .quiescing ∧
      (waitDone (r.controls e.2) e.1 = true → e.2 ∈ (w.after a r).notices) := by
  intro e he
  rw [after_asleep] at he
  obtain ⟨hq, hdue⟩ := h.asleep e he
  refine ⟨(h.registry.step hstep).2.closed e.2 hq, fun htrue => ?_⟩
  by_cases hbefore : waitDone (w.registry.controls e.2) e.1 = true
  · exact notices_subset_after a r (hdue hbefore)
  · refine mem_notices_after (h.registry.notifies_of_step hstep hq ?_ htrue)
    simpa using hbefore

theorem Inv.base (h : w.Inv) {a : Action} {r : Registry} (hstep : w.registry.step a = some r) :
    (w.after a r).Inv := by
  have hclosed := (h.registry.step hstep).2.closed
  have hfailed := fun hf => failed_of_step hstep hf
  -- what an earlier report has left
  have hreported : w.reported = true → r.runtimeFailed = true ∧
      ∀ c ∈ r.registered, (r.controls c).state = .quiescing := by
    intro hr
    obtain ⟨hf, hall⟩ := h.reported hr
    exact ⟨(hfailed hf).1, fun c hc => hclosed c (hall c ((hfailed hf).2 c hc))⟩
  have hswept : w.reportSweep = true → r.runtimeFailed = true ∧ (r.Swept ∨ a = .advance ∧
      r.sweep = none ∧ ∀ c ∈ r.registered, (r.controls c).state = .quiescing) := by
    intro hs
    obtain ⟨hf, hswept⟩ := h.sweep hs
    exact ⟨(hfailed hf).1, h.registry.swept_of_step hstep hf hswept⟩
  have hrest : (a ≠ .advance → w.reportSweep = true → r.runtimeFailed = true ∧ r.Swept) := by
    intro ha hs
    exact ⟨(hswept hs).1, (hswept hs).2.resolve_right fun hend => ha hend.1⟩
  refine ⟨?_, ?_, ?_, ?_, ?_⟩
  · rw [after_registry]
    exact (h.registry.step hstep).1
  · rw [after_registry]
    exact h.asleep_after hstep
  · rw [after_registry]
    intro hne
    cases a with
    | reportFailure =>
      simp only [Registry.step, Option.ite_none_right_eq_some, Option.some.injEq] at hstep
      obtain ⟨-, rfl⟩ := hstep
      rfl
    | _ =>
      refine (hfailed (h.reports fun hzero => hne ?_)).1
      unfold after
      dsimp only
      (try split_ifs) <;> exact hzero
  · rw [after_registry]
    intro hs
    cases a with
    | startSweep clearing => cases hs
    | advance =>
      simp only [after] at hs
      split_ifs at hs with hnone
      refine ⟨(hswept hs).1, (hswept hs).2.resolve_right fun hend => hnone ?_⟩
      rw [hend.2.1]
      rfl
    | finish _ | resetLease _ =>
      simp only [after] at hs
      exact hrest (by simp) (by split_ifs at hs <;> exact hs)
    | _ => exact hrest (by simp) hs
  · rw [after_registry]
    intro hr
    cases a with
    | advance =>
      simp only [after] at hr
      split_ifs at hr with hnone
      · rcases Bool.or_eq_true_iff.mp hr with hr | hs
        · exact hreported hr
        · obtain ⟨hf, hend⟩ := hswept hs
          refine ⟨hf, (hend.resolve_left ?_).2.2⟩
          rintro ⟨todo, hsome, -⟩
          rw [hsome] at hnone
          cases hnone
      · exact hreported hr
    | finish _ | resetLease _ =>
      simp only [after] at hr
      exact hreported (by split_ifs at hr <;> exact hr)
    | _ => exact hreported hr

/-- The invariant of the registry with other calls in progress. -/
theorem Inv.with_pending (h : w.Inv) {pending : List (Call × ℕ)}
    (hpending : ∀ e ∈ pending, e.2 < w.registry.made) :
    ({ w.registry with pending := pending } : Registry).Inv :=
  ⟨h.registry.submissions, h.registry.work, h.registry.retired, h.registry.known, hpending,
    h.registry.fresh, h.registry.sweep⟩

theorem Inv.asleep_lt (h : w.Inv) {e : Call × ℕ} (he : e ∈ w.asleep) : e.2 < w.registry.made := by
  refine h.registry.lt_made fun heq => ?_
  have hq := (h.asleep e he).1
  rw [heq] at hq
  cases hq

theorem Inv.step (h : w.Inv) {a : Act} (hstep : w.step a = some w') : w'.Inv := by
  cases a with
  | base a =>
    obtain ⟨r, hr, rfl⟩ := Option.map_eq_some_iff.mp hstep
    exact h.base hr
  | sweepReport =>
    simp only [Watched.step] at hstep
    split_ifs at hstep with hzero
    obtain ⟨r, hr, rfl⟩ := Option.map_eq_some_iff.mp hstep
    have hf := h.reports hzero
    obtain ⟨hf', hsub⟩ := failed_of_step hr hf
    have hclosed := (h.registry.step hr).2.closed
    refine ⟨(h.registry.step hr).1, fun e he => ?_, fun _ => hf', fun _ => ⟨hf', ?_⟩, fun hrep => ?_⟩
    · have hasleep := h.asleep_after hr
      rw [after_asleep] at hasleep
      exact hasleep e he
    · simp only [Registry.step, Option.ite_none_right_eq_some, Option.some.injEq] at hr
      obtain ⟨-, rfl⟩ := hr
      exact ⟨_, rfl, fun c hc => .inl hc⟩
    · exact ⟨hf', fun c hc => hclosed c ((h.reported hrep).2 c (hsub c hc))⟩
  | quiesceAndWait c =>
    simp only [Watched.step] at hstep
    split_ifs at hstep with hmem
    cases hstep
    -- the first half of the call is a `quiesce`
    have hperform : w.registry.step (.perform .quiesce c) = some
        { w.registry.update c mark with pending := w.registry.pending.erase (.quiesce, c) } := by
      simp only [Registry.step, if_pos hmem]
      rfl
    have hbase := h.base hperform
    have hlt := h.registry.pending _ hmem
    refine ⟨hbase.with_pending fun e he => ?_, hbase.asleep, hbase.reports, hbase.sweep,
      hbase.reported⟩
    rcases List.mem_cons.mp he with rfl | he
    · exact hlt
    · exact h.registry.pending e (List.mem_of_mem_erase he)
  | park call c =>
    simp only [Watched.step] at hstep
    split_ifs at hstep with hpark
    cases hstep
    obtain ⟨hmem, -, hq, hfalse⟩ := hpark
    refine ⟨h.with_pending fun e he => h.registry.pending e (List.mem_of_mem_erase he), fun e he => ?_,
      h.reports, h.sweep, h.reported⟩
    rcases List.mem_cons.mp he with rfl | he
    · refine ⟨hq, fun htrue => ?_⟩
      change waitDone (w.registry.controls c) call = true at htrue
      rw [hfalse] at htrue
      cases htrue
    · exact h.asleep e he
  | wake call c =>
    simp only [Watched.step] at hstep
    split_ifs at hstep with hmem
    cases hstep
    refine ⟨h.with_pending fun e he => ?_, fun e he => h.asleep e (List.mem_of_mem_erase he),
      h.reports, h.sweep, h.reported⟩
    rcases List.mem_cons.mp he with rfl | he
    · exact h.asleep_lt hmem
    · exact h.registry.pending e he
  | notify c =>
    simp only [Watched.step] at hstep
    split_ifs at hstep with hmem
    cases hstep
    refine ⟨h.with_pending fun e he => ?_, fun e he => ?_, h.reports, h.sweep, h.reported⟩
    · rcases List.mem_append.mp he with he | he
      · exact h.asleep_lt (List.mem_of_mem_filter he)
      · exact h.registry.pending e he
    · obtain ⟨he, hne⟩ := List.mem_filter.mp he
      obtain ⟨hq, hdue⟩ := h.asleep e he
      exact ⟨hq, fun htrue => (List.mem_erase_of_ne (by simpa using hne)).mpr (hdue htrue)⟩

theorem inv_of_run {acts : List Act} (hw : w.Inv) (h : run Watched.step w acts = some w') :
    w'.Inv :=
  run_invariant (fun _ _ _ hinv hstep => hinv.step hstep) hw h

/-- A report that has returned stays so. -/
theorem reported_of_step {a : Act} (hstep : w.step a = some w') (h : w.reported = true) :
    w'.reported = true := by
  cases a with
  | base a =>
    obtain ⟨r, -, rfl⟩ := Option.map_eq_some_iff.mp hstep
    unfold after
    split <;> (try split_ifs) <;> simp [h]
  | sweepReport =>
    simp only [Watched.step] at hstep
    split_ifs at hstep
    obtain ⟨r, -, rfl⟩ := Option.map_eq_some_iff.mp hstep
    exact h
  | _ =>
    simp only [Watched.step] at hstep
    split_ifs at hstep
    cases hstep
    exact h

/-- No gate is open, and `open_query` throws. -/
def Closed (r : Registry) : Prop :=
  (∀ c ∈ r.registered, (r.controls c).state = .quiescing) ∧ r.runtimeFailed = true ∧
    ∀ id, r.openQuery id = r

/-- **A fatal failure is final, and no wake-up is lost**, over every interleaving. Once a fatal
    `report_failure` has returned, no query is open in any later state and none can be opened. A wait
    that sleeps on a true predicate has a notification due, so that no step makes the predicate
    of a sleeping wait true without notifying. -/
theorem failure_is_final_and_no_wakeup_is_lost (acts : List Act) (w : Watched)
    (h : run Watched.step {} acts = some w) :
    (w.reported = true → ∀ later w', run Watched.step w later = some w' → Closed w'.registry) ∧
      ∀ call c, (call, c) ∈ w.asleep → (w.registry.controls c).state = .quiescing ∧
        (waitDone (w.registry.controls c) call = true → c ∈ w.notices) := by
  have hinv := inv_of_run inv_init h
  refine ⟨fun hr later w' hlater => ?_, fun call c hmem => hinv.asleep (call, c) hmem⟩
  have hr' : w'.reported = true :=
    run_invariant (fun _ _ _ hrep hstep => reported_of_step hstep hrep) hr hlater
  obtain ⟨hf, hall⟩ := (inv_of_run hinv hlater).reported hr'
  refine ⟨hall, hf, fun id => ?_⟩
  unfold openQuery
  rw [hf, Bool.true_or, if_pos rfl]

/-- A waiter sleeps behind a guard while the device fails. The release of the guard owes it a
    notification. -/
def failureRun : List Act :=
  [.base (.openQuery 7), .base (.find .tryBeginSubmission 7), .base (.perform .tryBeginSubmission 0),
    .base (.find .waitForWork 7), .base .reportFailure, .sweepReport, .base .advance, .base .advance,
    .park .waitForWork 0, .base (.finish ⟨0, true⟩)]

theorem failure_run_closed :
    ∃ w, run Watched.step {} failureRun = some w ∧ (.waitForWork, 0) ∈ w.asleep ∧
      waitDone (w.registry.controls 0) .waitForWork = true ∧ 0 ∈ w.notices ∧ Closed w.registry := by
  obtain ⟨w, h, hreported, hasleep, htrue⟩ : ∃ w, run Watched.step {} failureRun = some w ∧
      w.reported = true ∧ w.asleep = [(.waitForWork, 0)] ∧
      waitDone (w.registry.controls 0) .waitForWork = true := ⟨_, rfl, rfl, rfl, rfl⟩
  have hmem : (.waitForWork, 0) ∈ w.asleep := by simp [hasleep]
  obtain ⟨hfinal, hwake⟩ := failure_is_final_and_no_wakeup_is_lost failureRun w h
  exact ⟨w, h, hmem, htrue, (hwake _ _ hmem).2 htrue, hfinal hreported [] w rfl⟩

end Watched

end Sirius.Exec.Registry
