import Sirius.Common.Actors
import Sirius.Common.Run

/-!
# The completion handler

Model of `completion_handler` (src/pipeline/completion_handler.hpp:75-325): the promise of a query,
which is resolved with a value when the work and its preparation are over, or with the first error. A
section under `terminal_mutex_` is one step; `on_error_`, the promise and the stop callback are used
after it. Exceptions and their diagnostics are parameters.

* `finishError`, `maybeComplete`, `step`: the calls, section by section.
* `decisions`: what was decided, in the order of the sections; the first decision wins.
* `Standing`, `Sound`: what the first decision means for the promise and the calls in progress.
* `completion_contract`: the future, the errors and the stop callback in every run.
-/

namespace Sirius.Exec.CompletionHandler

open Sirius.Common

variable {ε π κ φ ρ : Type}

/-! ## Calls -/

/-- What is known of exceptions `ε` and preparation failures `π`: the causes `κ`, the failures `φ`
    and the reasons `ρ`. A classification that throws is `none`. -/
structure Diagnostics (ε π κ φ ρ : Type) where
  other : κ
  classify : ε → κ → Option φ
  classifyPreparation : π → Option φ
  causeOnly : κ → φ
  reason : π → Option ρ
  cause : π → κ
  /-- What `validate` throws. -/
  validate : π → Option ε
  original : π → Option ε
  classified : π → ε

/-- The arguments of `finish_error`. -/
structure Report (ε π κ : Type) where
  error : ε
  fallback : κ
  preparation : Option π
  cleanupFailed : Bool

inductive Call (ε π κ : Type) where
  | reportError (error : ε) (fallback : κ)
  /-- The `runtime_error` of a text. -/
  | reportErrorText (error : ε)
  | reportPreparationFailure (failure : π)
  | reportPreparationCleanupError (error : ε)
  | setPreparationStopCallback
  | beginPreparation
  | closePreparationInputs
  | preparationQuiescent
  | markCompleted

/-- The report that a call makes (lines 75-131). -/
def Call.report (d : Diagnostics ε π κ φ ρ) : Call ε π κ → Option (Report ε π κ)
  | .reportError error fallback => some ⟨error, fallback, none, false⟩
  | .reportErrorText error => some ⟨error, d.other, none, false⟩
  | .reportPreparationFailure failure =>
    match d.validate failure with
    | some error => some ⟨error, d.other, none, false⟩
    | none => some ⟨(d.original failure).getD (d.classified failure), d.cause failure, some failure,
        false⟩
  | .reportPreparationCleanupError error => some ⟨error, d.other, none, true⟩
  | _ => none

/-- The failure that is saved with the winner (lines 279-286). -/
def Report.failure (d : Diagnostics ε π κ φ ρ) (r : Report ε π κ) : φ :=
  match r.preparation with
  | some preparation => (d.classifyPreparation preparation).getD (d.causeOnly r.fallback)
  | none => (d.classify r.error r.fallback).getD (d.causeOnly r.fallback)

def Report.reason (d : Diagnostics ε π κ φ ρ) (r : Report ε π κ) : Option ρ :=
  r.preparation.bind d.reason

/-! ## The handler -/

/-- The fields of `completion_handler`. -/
structure Handler (ε φ ρ : Type) where
  completed : Bool := false
  hasError : Bool := false
  terminalError : Option ε := none
  preparationCleanupError : Option ε := none
  /-- `none` is a failure that was never assigned. -/
  failure : Option φ := none
  failureReason : Option ρ := none
  gpuDone : Bool := false
  preparationActive : Bool := false
  inputsClosed : Bool := false
  preparationQuiescent : Bool := false
  stopBound : Bool := false

/-- What the promise is resolved with. -/
inductive Outcome (ε : Type) where
  | value
  | exception (error : ε)
  deriving DecidableEq

/-- What a section under the lock decides. -/
inductive Decision (ε π κ : Type) where
  | reported (report : Report ε π κ)
  | succeeded

/-- Who invokes the stop callback. -/
inductive StopCaller where
  | finishError
  | markCompleted
  | binder
  deriving DecidableEq

/-- Where a call is. -/
inductive Pc (ε π κ : Type) where
  | enter (call : Call ε π κ)
  | report (report : Report ε π κ)
  | onError (error : ε) (stop : Bool)
  | setException (error : ε) (stop : Bool)
  | callStop (caller : StopCaller) (argument : Bool)
  | returned

/-- The handler with the calls on it, what was done to the promise, what was decided, and how often
    the stop callback was invoked. -/
structure System (ε π κ φ ρ : Type) where
  handler : Handler ε φ ρ := {}
  resolutions : List (Outcome ε) := []
  decisions : List (Decision ε π κ) := []
  invoked : ℕ := 0
  threads : List (Pc ε π κ) := []

/-- The conditions of `maybe_complete`. -/
def Handler.finished (h : Handler ε φ ρ) : Bool :=
  h.gpuDone && (!h.preparationActive || (h.inputsClosed && h.preparationQuiescent))

/-- `maybe_complete` (lines 314-325). -/
def maybeComplete (s : System ε π κ φ ρ) : System ε π κ φ ρ :=
  if s.handler.completed || !s.handler.finished then s
  else
    { s with
      handler := { s.handler with completed := true }
      resolutions := s.resolutions ++ [Outcome.value]
      decisions := s.decisions ++ [Decision.succeeded] }

/-- The first error of a failed cleanup is latched (line 274). -/
def Handler.latch (h : Handler ε φ ρ) (r : Report ε π κ) : Handler ε φ ρ :=
  if r.cleanupFailed && h.preparationCleanupError.isNone then
    { h with preparationCleanupError := some r.error }
  else h

/-- `finish_error` under the lock (lines 273-293), and where the call goes on. -/
def finishError (d : Diagnostics ε π κ φ ρ) (s : System ε π κ φ ρ) (r : Report ε π κ) :
    System ε π κ φ ρ × Pc ε π κ :=
  let h := s.handler.latch r
  let decisions := s.decisions ++ [Decision.reported r]
  if h.completed then ({ s with handler := h, decisions := decisions }, .returned)
  else
    ({ s with
        decisions := decisions
        handler := { h with
          terminalError := some r.error
          failureReason := r.reason d
          failure := some (r.failure d)
          hasError := true
          completed := true } }, .onError r.error h.stopBound)

/-- The section of a call, and where the call goes on. -/
def enter (d : Diagnostics ε π κ φ ρ) (s : System ε π κ φ ρ) (call : Call ε π κ) :
    System ε π κ φ ρ × Pc ε π κ :=
  let h := s.handler
  match call with
  | .setPreparationStopCallback =>
    if h.stopBound then (s, .returned)
    else
      ({ s with handler := { h with stopBound := true } },
        if h.gpuDone || h.completed then .callStop .binder h.hasError else .returned)
  | .beginPreparation =>
    if h.preparationActive || h.gpuDone || h.completed then (s, .returned)
    else
      ({ s with handler := { h with
          preparationActive := true, inputsClosed := false, preparationQuiescent := false } },
        .returned)
  | .closePreparationInputs =>
    (maybeComplete { s with handler := { h with inputsClosed := true } }, .returned)
  | .preparationQuiescent =>
    (maybeComplete { s with handler := { h with preparationQuiescent := true } }, .returned)
  | .markCompleted =>
    (maybeComplete { s with handler := { h with gpuDone := true } },
      if h.stopBound then .callStop .markCompleted false else .returned)
  | call =>
    match call.report d with
    | some r => finishError d s r
    | none => (s, .returned)

/-- A step: a call starts, or a call goes on. The stop callback may throw. -/
inductive Act (ε π κ : Type) where
  | start (call : Call ε π κ)
  | advance (i : ℕ) (thrown : Option ε)

def System.resolve (s : System ε π κ φ ρ) (outcome : Outcome ε) : System ε π κ φ ρ :=
  { s with resolutions := s.resolutions ++ [outcome] }

/-- Where an error report goes on once the promise is resolved (lines 306-311). -/
def afterException (stop : Bool) : Pc ε π κ :=
  if stop then .callStop .finishError true else .returned

/-- A call goes on to another place. -/
def System.place (s : System ε π κ φ ρ) (i : ℕ) (pc : Pc ε π κ) : System ε π κ φ ρ :=
  { s with threads := s.threads.set i pc }

/-- One step of one thread. -/
def step (d : Diagnostics ε π κ φ ρ) (s : System ε π κ φ ρ) :
    Act ε π κ → Option (System ε π κ φ ρ)
  | .start call => some { s with threads := s.threads ++ [Pc.enter call] }
  | .advance i thrown =>
    match s.threads[i]? with
    | none | some .returned => none
    | some (.enter call) => some ((enter d s call).1.place i (enter d s call).2)
    | some (.report r) => some ((finishError d s r).1.place i (finishError d s r).2)
    | some (.onError error stop) => some (s.place i (.setException error stop))
    | some (.setException error stop) =>
      some ((s.resolve (.exception error)).place i (afterException stop))
    | some (.callStop caller _) =>
      let s := { s with invoked := s.invoked + 1 }
      match caller, thrown with
      | .markCompleted, some error => some (s.place i (.report ⟨error, d.other, none, false⟩))
      | _, _ => some (s.place i .returned)

/-! ## The invariant -/

/-- The call has the promise to resolve. -/
def Pc.pends : Pc ε π κ → ℕ
  | .onError _ _ | .setException _ _ => 1
  | _ => 0

/-- The call has the stop callback to invoke. -/
def Pc.stops : Pc ε π κ → ℕ
  | .onError _ stop | .setException _ stop => if stop then 1 else 0
  | .callStop _ _ => 1
  | _ => 0

/-- The error that the call resolves the promise with. -/
def Pc.error : Pc ε π κ → Option ε
  | .onError error _ | .setException error _ => some error
  | _ => none

/-- What the first decision means: for the errors that are described, and for the promise, which is
    resolved or waits for one call. -/
def Standing (d : Diagnostics ε π κ φ ρ) (s : System ε π κ φ ρ) (pending : ℕ) : Prop :=
  let h := s.handler
  match s.decisions.head? with
  | none => h.completed = false ∧ h.terminalError = none ∧ h.finished = false ∧
      s.resolutions = [] ∧ pending = 0
  | some .succeeded => h.completed = true ∧ h.terminalError = none ∧ h.finished = true ∧
      s.resolutions = [.value] ∧ pending = 0
  | some (.reported r) => h.completed = true ∧ h.terminalError = some r.error ∧
      h.failure = some (r.failure d) ∧ h.failureReason = r.reason d ∧
      (s.resolutions = [] ∧ pending = 1 ∨ s.resolutions = [.exception r.error] ∧ pending = 0)

/-- A bound stop callback was invoked or waits for a call, once there is something to stop for. -/
def StopOwed (s : System ε π κ φ ρ) (stops : ℕ) : Prop :=
  s.handler.stopBound = true → (s.handler.gpuDone || s.handler.completed) = true →
    0 < s.invoked + stops

/-- The invariant. -/
structure Sound (d : Diagnostics ε π κ φ ρ) (s : System ε π κ φ ρ) : Prop where
  standing : Standing d s (total Pc.pends s.threads)
  errors : ∀ pc ∈ s.threads, ∀ error, pc.error = some error → s.handler.terminalError = some error
  stop : StopOwed s (total Pc.stops s.threads)

variable {d : Diagnostics ε π κ φ ρ} {s t : System ε π κ φ ρ} {pc : Pc ε π κ}

/-- A section leads from `s` to `t`, and its call to `pc`. -/
structure Section (d : Diagnostics ε π κ φ ρ) (s t : System ε π κ φ ρ) (pc : Pc ε π κ) : Prop where
  threads : t.threads = s.threads
  standing : Standing d t (total Pc.pends s.threads + pc.pends)
  keeps : ∀ error, s.handler.terminalError = some error → t.handler.terminalError = some error
  error : ∀ error, pc.error = some error → t.handler.terminalError = some error
  stop : StopOwed t (total Pc.stops s.threads + pc.stops)

/-- A call whose section was next goes on. -/
theorem Section.place {i : ℕ} {old : Pc ε π κ} (hs : Sound d s) (h : Section d s t pc)
    (hi : s.threads[i]? = some old) (hpends : old.pends = 0) (hstops : old.stops = 0) :
    Sound d (t.place i pc) := by
  have hp := total_set (w := Pc.pends) hi pc
  have hq := total_set (w := Pc.stops) hi pc
  rw [hpends, Nat.add_zero] at hp
  rw [hstops, Nat.add_zero] at hq
  refine ⟨?_, fun pc' hpc' error herror => ?_, ?_⟩
  · show Standing d t (total Pc.pends (t.threads.set i pc))
    rw [h.threads, hp]
    exact h.standing
  · have hmem : pc' ∈ t.threads.set i pc := hpc'
    rw [h.threads] at hmem
    show t.handler.terminalError = some error
    rcases List.mem_or_eq_of_mem_set hmem with hmem | rfl
    · exact h.keeps error (hs.errors pc' hmem error herror)
    · exact h.error error herror
  · show StopOwed t (total Pc.stops (t.threads.set i pc))
    rw [h.threads, hq]
    exact h.stop

/-! ## Sections -/

/-- A section that leaves the handler alone, and whose call returns. -/
theorem section_refl (hs : Sound d s) : Section d s s .returned where
  threads := rfl
  standing := hs.standing
  keeps := fun _ h => h
  error := fun _ h => by cases h
  stop := hs.stop

theorem head?_concat {α : Type} (l : List α) (a : α) :
    (l ++ [a]).head? = some (l.head?.getD a) := by
  cases l <;> rfl

theorem Handler.latch_eq (h : Handler ε φ ρ) (r : Report ε π κ) :
    ∃ latched, h.latch r = { h with preparationCleanupError := latched } := by
  unfold Handler.latch
  split_ifs
  · exact ⟨_, rfl⟩
  · exact ⟨h.preparationCleanupError, rfl⟩

/-- **`finish_error`**: the first report wins, and later ones leave the winner alone. -/
theorem finishError_section (hs : Sound d s) (r : Report ε π κ) :
    Section d s (finishError d s r).1 (finishError d s r).2 := by
  obtain ⟨hstanding, herrors, hstop⟩ := hs
  obtain ⟨latched, hlatch⟩ := s.handler.latch_eq r
  unfold finishError
  dsimp only
  rw [hlatch]
  cases hhead : s.decisions.head? with
  | none =>
    simp only [Standing, hhead] at hstanding
    obtain ⟨hopen, hnone, -, hresolutions, hpending⟩ := hstanding
    rw [if_neg (by simp [hopen])]
    refine ⟨rfl, ?_, fun error herror => ?_, fun error herror => herror, fun hb _ => ?_⟩
    · simp only [Standing, head?_concat, hhead, Option.getD_none]
      exact ⟨trivial, trivial, trivial, trivial, .inl ⟨hresolutions, by rw [hpending]; rfl⟩⟩
    · rw [hnone] at herror
      cases herror
    · have hb' : s.handler.stopBound = true := hb
      simp only [Pc.stops, hb', if_true]
      omega
  | some decision =>
    have hdone : s.handler.completed = true := by
      simp only [Standing, hhead] at hstanding
      cases decision with
      | succeeded => exact hstanding.1
      | reported r => exact hstanding.1
    rw [if_pos (by simp [hdone])]
    refine ⟨rfl, ?_, fun error herror => herror, fun error herror => ?_, hstop⟩
    swap
    · cases herror
    simp only [Standing, head?_concat, hhead, Option.getD_some] at hstanding ⊢
    cases decision with
    | succeeded => exact hstanding
    | reported r => exact hstanding

/-- **`maybe_complete`** after a condition was met. -/
theorem maybeComplete_section {h : Handler ε φ ρ} (hs : Sound d s) {pc : Pc ε π κ}
    (hpends : pc.pends = 0) (herror : pc.error = none)
    (hkeep : h = { s.handler with
      gpuDone := h.gpuDone, inputsClosed := h.inputsClosed,
      preparationQuiescent := h.preparationQuiescent })
    (hgrow : s.handler.finished = true → h.finished = true)
    (hstop : h.stopBound = true → (h.gpuDone || h.finished || s.handler.completed) = true →
      0 < s.invoked + (total Pc.stops s.threads + pc.stops)) :
    Section d s (maybeComplete { s with handler := h }) pc := by
  have hcompleted : h.completed = s.handler.completed := by rw [hkeep]
  have hterminal : h.terminalError = s.handler.terminalError := by rw [hkeep]
  have hfailure : h.failure = s.handler.failure := by rw [hkeep]
  have hreason : h.failureReason = s.handler.failureReason := by rw [hkeep]
  have hstanding := hs.standing
  unfold maybeComplete
  by_cases hdecide : (h.completed || !h.finished) = true
  · rw [if_pos hdecide]
    refine ⟨rfl, ?_, fun e he => hterminal.trans he, fun e he => absurd he (by simp [herror]),
      fun hb hor => hstop hb ?_⟩
    · rw [hpends, Nat.add_zero]
      simp only [Standing] at hstanding ⊢
      cases hhead : s.decisions.head? with
      | none =>
        simp only [hhead] at hstanding ⊢
        rw [hcompleted, hstanding.1, Bool.false_or, Bool.not_eq_true'] at hdecide
        exact ⟨hcompleted.trans hstanding.1, hterminal.trans hstanding.2.1, hdecide,
          hstanding.2.2.2⟩
      | some decision =>
        cases decision with
        | succeeded =>
          simp only [hhead] at hstanding ⊢
          exact ⟨hcompleted.trans hstanding.1, hterminal.trans hstanding.2.1,
            hgrow hstanding.2.2.1, hstanding.2.2.2⟩
        | reported r =>
          simp only [hhead] at hstanding ⊢
          rw [hcompleted, hterminal, hfailure, hreason]
          exact hstanding
    · rw [← hcompleted]
      have hor' : (h.gpuDone || h.completed) = true := hor
      rcases (Bool.or_eq_true _ _).mp hor' with hg | hg <;> simp [hg]
  · rw [if_neg hdecide]
    simp only [Bool.or_eq_true, not_or, Bool.not_eq_true, Bool.not_eq_true', Bool.not_eq_false]
      at hdecide
    have hopen : s.handler.completed = false := hcompleted.symm.trans hdecide.1
    cases hhead : s.decisions.head? with
    | none =>
      simp only [Standing, hhead] at hstanding
      obtain ⟨-, hnone, -, hresolutions, hpending⟩ := hstanding
      refine ⟨rfl, ?_, fun e he => hterminal.trans he, fun e he => absurd he (by simp [herror]),
        fun hb _ => hstop hb ?_⟩
      · rw [hpends, Nat.add_zero]
        simp only [Standing, head?_concat, hhead, Option.getD_none]
        refine ⟨trivial, hterminal.trans hnone, hdecide.2, ?_, hpending⟩
        rw [hresolutions]
        rfl
      · rw [hdecide.2]
        simp
    | some decision =>
      simp only [Standing, hhead] at hstanding
      cases decision with
      | succeeded | reported _ =>
        rw [hopen] at hstanding
        exact absurd hstanding.1 Bool.false_ne_true

/-- The section of a call. -/
theorem enter_section (hs : Sound d s) (call : Call ε π κ) :
    Section d s (enter d s call).1 (enter d s call).2 := by
  have hstop := hs.stop
  have hstanding := hs.standing
  cases call with
  | setPreparationStopCallback =>
    unfold enter
    dsimp only
    by_cases hbound : s.handler.stopBound = true
    · rw [if_pos hbound]
      exact section_refl hs
    · rw [if_neg hbound]
      by_cases hor : (s.handler.gpuDone || s.handler.completed) = true
      · rw [if_pos hor]
        refine ⟨rfl, hstanding, fun error h => h, fun error h => ?_, fun _ _ => ?_⟩
        · cases h
        · show 0 < s.invoked + (total Pc.stops s.threads + 1)
          omega
      · rw [if_neg hor]
        refine ⟨rfl, hstanding, fun error h => h, fun error h => ?_, fun _ h => absurd h hor⟩
        cases h
  | beginPreparation =>
    unfold enter
    dsimp only
    by_cases hrefused :
        (s.handler.preparationActive || s.handler.gpuDone || s.handler.completed) = true
    · rw [if_pos hrefused]
      exact section_refl hs
    · rw [if_neg hrefused]
      simp only [Bool.or_eq_true, not_or, Bool.not_eq_true] at hrefused
      refine ⟨rfl, ?_, fun error h => h, fun error h => ?_, hstop⟩
      · -- nothing was decided, and the work is not over
        simp only [Standing] at hstanding ⊢
        cases hhead : s.decisions.head? with
        | none =>
          simp only [hhead] at hstanding ⊢
          refine ⟨hstanding.1, hstanding.2.1, ?_, hstanding.2.2.2⟩
          simp [Handler.finished]
        | some decision =>
          simp only [hhead] at hstanding
          cases decision with
          | succeeded | reported _ =>
            rw [hrefused.2] at hstanding
            exact absurd hstanding.1 Bool.false_ne_true
      · cases h
  | closePreparationInputs =>
    refine maybeComplete_section hs rfl rfl rfl (fun h => ?_) fun hb hor => hstop hb ?_
    · simp only [Handler.finished, Bool.and_eq_true, Bool.or_eq_true] at h ⊢
      exact ⟨h.1, h.2.imp_right fun h => ⟨trivial, h.2⟩⟩
    · simp only [Handler.finished, Bool.or_eq_true, Bool.and_eq_true] at hor
      rcases hor with (h | h) | h
      · simp [h]
      · simp [h.1]
      · simp [h]
  | preparationQuiescent =>
    refine maybeComplete_section hs rfl rfl rfl (fun h => ?_) fun hb hor => hstop hb ?_
    · simp only [Handler.finished, Bool.and_eq_true, Bool.or_eq_true] at h ⊢
      exact ⟨h.1, h.2.imp_right fun h => ⟨h.1, trivial⟩⟩
    · simp only [Handler.finished, Bool.or_eq_true, Bool.and_eq_true] at hor
      rcases hor with (h | h) | h
      · simp [h]
      · simp [h.1]
      · simp [h]
  | markCompleted =>
    unfold enter
    dsimp only
    refine maybeComplete_section hs ?_ ?_ rfl (fun h => ?_) fun hb _ => ?_
    · split_ifs <;> rfl
    · split_ifs <;> rfl
    · simp only [Handler.finished, Bool.and_eq_true] at h ⊢
      exact ⟨trivial, h.2⟩
    · have hb' : s.handler.stopBound = true := hb
      simp only [hb', if_true, Pc.stops]
      omega
  | reportError error fallback => exact finishError_section hs _
  | reportErrorText error => exact finishError_section hs _
  | reportPreparationFailure failure =>
    unfold enter Call.report
    dsimp only
    cases d.validate failure with
    | none => exact finishError_section hs _
    | some error => exact finishError_section hs _
  | reportPreparationCleanupError error => exact finishError_section hs _

/-! ## Runs -/

theorem sound_init : Sound d ({} : System ε π κ φ ρ) where
  standing := ⟨rfl, rfl, rfl, rfl, rfl⟩
  errors := fun _ h => absurd h List.not_mem_nil
  stop := fun h => absurd h Bool.false_ne_true

/-- A call that moves on with what it owes. -/
theorem Sound.move {i : ℕ} {old new : Pc ε π κ} (hs : Sound d s) (hi : s.threads[i]? = some old)
    (hpends : new.pends = old.pends) (hstops : new.stops = old.stops)
    (herror : new.error = old.error) : Sound d (s.place i new) := by
  have hp := total_set (w := Pc.pends) hi new
  have hq := total_set (w := Pc.stops) hi new
  have hpends' : total Pc.pends (s.threads.set i new) = total Pc.pends s.threads := by omega
  have hstops' : total Pc.stops (s.threads.set i new) = total Pc.stops s.threads := by omega
  refine ⟨?_, fun pc hpc error he => ?_, ?_⟩
  · show Standing d s (total Pc.pends (s.threads.set i new))
    rw [hpends']
    exact hs.standing
  · show s.handler.terminalError = some error
    rcases List.mem_or_eq_of_mem_set hpc with hpc | rfl
    · exact hs.errors pc hpc error he
    · exact hs.errors old (List.mem_of_getElem? hi) error (herror.symm.trans he)
  · show StopOwed s (total Pc.stops (s.threads.set i new))
    rw [hstops']
    exact hs.stop

/-- The winner resolves the promise. -/
theorem Sound.resolve {i : ℕ} {error : ε} {stop : Bool} (hs : Sound d s)
    (hi : s.threads[i]? = some (.setException error stop)) :
    Sound d ((s.resolve (.exception error)).place i (afterException stop)) := by
  obtain ⟨hstanding, herrors, hstop⟩ := hs
  have hterminal := herrors _ (List.mem_of_getElem? hi) error rfl
  have hp := total_set (w := Pc.pends) hi (afterException stop)
  have hq := total_set (w := Pc.stops) hi (afterException stop)
  have hpends : (afterException stop : Pc ε π κ).pends = 0 := by cases stop <;> rfl
  have hstops : (afterException stop : Pc ε π κ).stops
      = (Pc.setException error stop : Pc ε π κ).stops := by cases stop <;> rfl
  have hpends' : total Pc.pends (s.threads.set i (afterException stop)) + 1
      = total Pc.pends s.threads := by
    rw [hpends] at hp
    exact hp
  have hstops' : total Pc.stops (s.threads.set i (afterException stop))
      = total Pc.stops s.threads := by omega
  refine ⟨?_, fun pc hpc e he => ?_, ?_⟩
  · show Standing d (s.resolve (.exception error))
      (total Pc.pends (s.threads.set i (afterException stop)))
    simp only [Standing, System.resolve] at hstanding ⊢
    cases hhead : s.decisions.head? with
    | none =>
      simp only [hhead] at hstanding
      rw [hstanding.2.1] at hterminal
      cases hterminal
    | some decision =>
      cases decision with
      | succeeded =>
        simp only [hhead] at hstanding
        rw [hstanding.2.1] at hterminal
        cases hterminal
      | reported r =>
        simp only [hhead] at hstanding ⊢
        obtain ⟨hcompleted, hwinner, hfailure, hreason, hpending⟩ := hstanding
        obtain rfl : r.error = error := Option.some.inj (hwinner.symm.trans hterminal)
        refine ⟨hcompleted, hwinner, hfailure, hreason, .inr ?_⟩
        rcases hpending with ⟨hnone, hone⟩ | ⟨-, hzero⟩
        · rw [hnone]
          exact ⟨rfl, by omega⟩
        · omega
  · show s.handler.terminalError = some e
    rcases List.mem_or_eq_of_mem_set hpc with hpc | rfl
    · exact herrors pc hpc e he
    · cases stop <;> cases he
  · show StopOwed (s.resolve (.exception error))
      (total Pc.stops (s.threads.set i (afterException stop)))
    rw [hstops']
    exact hstop

/-- The stop callback is invoked. -/
theorem Sound.invoke {i : ℕ} {caller : StopCaller} {argument : Bool} {new : Pc ε π κ}
    (hs : Sound d s) (hi : s.threads[i]? = some (.callStop caller argument))
    (hpends : new.pends = 0) (herror : new.error = none) :
    Sound d ({ s with invoked := s.invoked + 1 }.place i new) := by
  obtain ⟨hstanding, herrors, hstop⟩ := hs
  have hp := total_set (w := Pc.pends) hi new
  have hpends' : total Pc.pends (s.threads.set i new) = total Pc.pends s.threads := by
    rw [hpends] at hp
    exact hp
  refine ⟨?_, fun pc hpc e he => ?_, fun _ _ => ?_⟩
  · show Standing d s (total Pc.pends (s.threads.set i new))
    rw [hpends']
    exact hstanding
  · show s.handler.terminalError = some e
    rcases List.mem_or_eq_of_mem_set hpc with hpc | rfl
    · exact herrors pc hpc e he
    · rw [herror] at he
      cases he
  · show 0 < s.invoked + 1 + _
    omega

/-- **The step lemma.** -/
theorem step_sound {a : Act ε π κ} (hs : Sound d s) (h : step d s a = some t) : Sound d t := by
  cases a with
  | start call =>
    obtain rfl := Option.some.inj h
    refine ⟨?_, fun pc hpc error he => ?_, ?_⟩
    · show Standing d s (total Pc.pends (s.threads ++ [Pc.enter call]))
      rw [total_append]
      exact hs.standing
    · rcases List.mem_append.mp hpc with hpc | hpc
      · exact hs.errors pc hpc error he
      · rw [List.mem_singleton.mp hpc] at he
        cases he
    · show StopOwed s (total Pc.stops (s.threads ++ [Pc.enter call]))
      rw [total_append]
      exact hs.stop
  | advance i thrown =>
    unfold step at h
    dsimp only at h
    cases hi : s.threads[i]? with
    | none => simp [hi] at h
    | some pc =>
      rw [hi] at h
      cases pc with
      | returned => cases h
      | enter call =>
        obtain rfl := Option.some.inj h
        exact (enter_section hs call).place hs hi rfl rfl
      | report r =>
        obtain rfl := Option.some.inj h
        exact (finishError_section hs r).place hs hi rfl rfl
      | onError error stop =>
        obtain rfl := Option.some.inj h
        exact hs.move hi rfl rfl rfl
      | setException error stop =>
        obtain rfl := Option.some.inj h
        exact hs.resolve hi
      | callStop caller argument =>
        dsimp only at h
        split at h
        · obtain rfl := Option.some.inj h
          exact hs.invoke hi rfl rfl
        · obtain rfl := Option.some.inj h
          exact hs.invoke hi rfl rfl

/-- No call is in progress. -/
def Idle (s : System ε π κ φ ρ) : Prop := ∀ pc ∈ s.threads, pc = .returned

/-- The future of a run, from what was decided first. -/
structure Contract (d : Diagnostics ε π κ φ ρ) (s : System ε π κ φ ρ) : Prop where
  /-- The future is resolved at most once. -/
  once : s.resolutions.length ≤ 1
  /-- A value comes before any error report, when the work and its preparation are over. -/
  value : Outcome.value ∈ s.resolutions → s.decisions.head? = some .succeeded ∧
    s.handler.gpuDone = true ∧ (s.handler.preparationActive = true →
      s.handler.inputsClosed = true ∧ s.handler.preparationQuiescent = true)
  /-- An error is that of the first report, which is also the one that is described. -/
  exception : ∀ error, Outcome.exception error ∈ s.resolutions → ∃ r : Report ε π κ,
    s.decisions.head? = some (.reported r) ∧ r.error = error ∧
    s.handler.terminalError = some error ∧ s.handler.failure = some (r.failure d) ∧
    s.handler.failureReason = r.reason d
  /-- What was decided is resolved, or a call in progress has yet to resolve it. -/
  resolved : ((∃ r, Decision.reported r ∈ s.decisions) ∨ s.handler.finished = true) →
    s.resolutions.length = 1 ∨ ∃ pc ∈ s.threads, pc.error.isSome
  /-- A bound stop callback was invoked, or a call in progress has yet to invoke it. -/
  stop : s.handler.stopBound = true →
    (s.handler.gpuDone = true ∨ ∃ r, Decision.reported r ∈ s.decisions) →
    0 < s.invoked ∨ ∃ pc ∈ s.threads, 0 < pc.stops
  /-- With no call in progress both are done. -/
  idle : Idle s → (((∃ r, Decision.reported r ∈ s.decisions) ∨ s.handler.finished = true) →
    s.resolutions.length = 1) ∧ (s.handler.stopBound = true →
      (s.handler.gpuDone = true ∨ ∃ r, Decision.reported r ∈ s.decisions) → 0 < s.invoked)

/-- Something was decided. -/
theorem Standing.completed {pending : ℕ} {decision : Decision ε π κ} (h : Standing d s pending)
    (hhead : s.decisions.head? = some decision) : s.handler.completed = true := by
  simp only [Standing, hhead] at h
  cases decision with
  | succeeded => exact h.1
  | reported r => exact h.1

theorem exists_head {r : Report ε π κ} (h : Decision.reported r ∈ s.decisions) :
    ∃ decision, s.decisions.head? = some decision := by
  cases hdecisions : s.decisions with
  | nil =>
    rw [hdecisions] at h
    cases h
  | cons decision rest => exact ⟨decision, rfl⟩

theorem finished_iff {h : Handler ε φ ρ} : h.finished = true ↔ h.gpuDone = true ∧
    (h.preparationActive = true → h.inputsClosed = true ∧ h.preparationQuiescent = true) := by
  unfold Handler.finished
  cases h.preparationActive <;> simp

/-- A resolved or pending future. -/
theorem Sound.resolved (hs : Sound d s)
    (h : (∃ r, Decision.reported r ∈ s.decisions) ∨ s.handler.finished = true) :
    s.resolutions.length = 1 ∨ ∃ pc ∈ s.threads, pc.error.isSome := by
  have hstanding := hs.standing
  cases hhead : s.decisions.head? with
  | none =>
    rcases h with ⟨r, hr⟩ | hfinished
    · obtain ⟨decision, hdecision⟩ := exists_head hr
      rw [hhead] at hdecision
      cases hdecision
    · simp only [Standing, hhead] at hstanding
      rw [hfinished] at hstanding
      exact absurd hstanding.2.2.1 (by simp)
  | some decision =>
    cases decision with
    | succeeded =>
      simp only [Standing, hhead] at hstanding
      rw [hstanding.2.2.2.1]
      exact .inl rfl
    | reported r =>
      simp only [Standing, hhead] at hstanding
      rcases hstanding.2.2.2.2 with ⟨-, hone⟩ | ⟨hresolved, -⟩
      · obtain ⟨i, pc, hi, hpos⟩ := exists_of_total_pos (show 0 < total Pc.pends s.threads by omega)
        refine .inr ⟨pc, List.mem_of_getElem? hi, ?_⟩
        cases pc with
        | onError | setException => rfl
        | enter | report | callStop | returned => cases hpos
      · rw [hresolved]
        exact .inl rfl

/-- An invoked or pending stop callback. -/
theorem Sound.stopped (hs : Sound d s) (hbound : s.handler.stopBound = true)
    (h : s.handler.gpuDone = true ∨ ∃ r, Decision.reported r ∈ s.decisions) :
    0 < s.invoked ∨ ∃ pc ∈ s.threads, 0 < pc.stops := by
  have hor : (s.handler.gpuDone || s.handler.completed) = true := by
    rcases h with hdone | ⟨r, hr⟩
    · rw [hdone]
      rfl
    · obtain ⟨decision, hdecision⟩ := exists_head hr
      rw [hs.standing.completed hdecision]
      exact Bool.or_true _
  have howed := hs.stop hbound hor
  by_cases hinvoked : 0 < s.invoked
  · exact .inl hinvoked
  · obtain ⟨i, pc, hi, hpos⟩ := exists_of_total_pos (show 0 < total Pc.stops s.threads by omega)
    exact .inr ⟨pc, List.mem_of_getElem? hi, hpos⟩

theorem Sound.contract (hs : Sound d s) : Contract d s := by
  have hstanding := hs.standing
  have hresolutions : s.resolutions = [] ∨
      (s.resolutions = [.value] ∧ s.decisions.head? = some .succeeded ∧
        s.handler.finished = true) ∨
      ∃ r : Report ε π κ, s.resolutions = [.exception r.error] ∧
        s.decisions.head? = some (.reported r) ∧ s.handler.terminalError = some r.error ∧
        s.handler.failure = some (r.failure d) ∧ s.handler.failureReason = r.reason d := by
    cases hhead : s.decisions.head? with
    | none =>
      simp only [Standing, hhead] at hstanding
      exact .inl hstanding.2.2.2.1
    | some decision =>
      cases decision with
      | succeeded =>
        simp only [Standing, hhead] at hstanding
        exact .inr (.inl ⟨hstanding.2.2.2.1, rfl, hstanding.2.2.1⟩)
      | reported r =>
        simp only [Standing, hhead] at hstanding
        obtain ⟨-, hwinner, hfailure, hreason, ⟨hnone, -⟩ | ⟨hone, -⟩⟩ := hstanding
        · exact .inl hnone
        · exact .inr (.inr ⟨r, hone, rfl, hwinner, hfailure, hreason⟩)
  refine ⟨?_, fun hvalue => ?_, fun error herror => ?_, hs.resolved, hs.stopped, fun hidle => ?_⟩
  · rcases hresolutions with h | ⟨h, -⟩ | ⟨r, h, -⟩ <;> simp [h]
  · rcases hresolutions with h | ⟨-, hhead, hfinished⟩ | ⟨r, h, -⟩
    · simp [h] at hvalue
    · exact ⟨hhead, finished_iff.mp hfinished⟩
    · simp [h] at hvalue
  · rcases hresolutions with h | ⟨h, -⟩ | ⟨r, h, hhead, hwinner, hfailure, hreason⟩
    · simp [h] at herror
    · simp [h] at herror
    · obtain rfl : error = r.error := by simpa [h] using herror
      exact ⟨r, hhead, rfl, hwinner, hfailure, hreason⟩
  · refine ⟨fun h => ?_, fun hbound h => ?_⟩
    · rcases hs.resolved h with hone | ⟨pc, hpc, herror⟩
      · exact hone
      · rw [hidle pc hpc] at herror
        cases herror
    · rcases hs.stopped hbound h with hinvoked | ⟨pc, hpc, hpos⟩
      · exact hinvoked
      · rw [hidle pc hpc] at hpos
        cases hpos

/-- **The completion handler over every interleaving of its calls.** -/
theorem completion_contract {acts : List (Act ε π κ)} {s : System ε π κ φ ρ}
    (hrun : run (step d) {} acts = some s) : Contract d s :=
  (run_invariant (fun _ _ _ hs h => step_sound hs h) sound_init hrun).contract

/-- Diagnostics whose exceptions, causes and failures are numbers. -/
def plainDiagnostics : Diagnostics ℕ ℕ ℕ ℕ ℕ where
  other := 0
  classify := fun error _ => some error
  classifyPreparation := some
  causeOnly := id
  reason := some
  cause := id
  validate := fun _ => none
  original := some
  classified := id

/-- A report wins while the work is marked complete, the stop callback is bound late, and the second
    report loses. -/
def shownActs : List (Act ℕ ℕ ℕ) :=
  [.start .beginPreparation, .advance 0 none, .start (.reportError 7 1), .start .markCompleted,
    .start .setPreparationStopCallback, .start (.reportErrorText 8), .advance 1 none,
    .advance 2 none, .advance 3 none, .advance 4 none, .advance 3 none, .advance 1 none,
    .advance 1 none]

theorem completion_contract_shownActs :
    ∃ s, run (step plainDiagnostics) {} shownActs = some s ∧ Contract plainDiagnostics s ∧
      s.resolutions = [.exception 7] ∧ s.handler.terminalError = some 7 ∧ s.invoked = 1 := by
  obtain ⟨s, hs⟩ : ∃ s, run (step plainDiagnostics) {} shownActs = some s := ⟨_, rfl⟩
  refine ⟨s, hs, completion_contract hs, ?_⟩
  obtain rfl := Option.some.inj hs
  exact ⟨rfl, rfl, rfl⟩

end Sirius.Exec.CompletionHandler
