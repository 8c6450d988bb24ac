import Sirius.Common.Actors
import Sirius.Common.Trace

/-!
# Fan out and join

Model of `fan_out_and_join` (src/scan_manager/mvcc_mask_job.cpp:46-101) with the slots of its
`completion_controller` (src/exec/completion_controller.hpp): the caller wraps each task in a
closure that holds a slot, offers it to the dispatcher, closes the controller and waits. A
reference count of zero, the controller's own reference included, fires the completion.

The dispatcher is any: it may start an accepted closure at any time and beside any other, or
destroy it without running it, and an `enqueue` may throw. A closure that was not accepted is
destroyed before the exception reaches the caller (src/exec/scoped_dispatcher.hpp, `submit`).

* `Closure.move`, `step`: the closures, and the system.
* `Inv`: the slots, the counter and the recorded errors, against the closures and the trace.
* `fan_out_and_join_contract`: the contract, over every run.
-/

namespace Sirius.ScanManager.FanOutJoin

open Sirius.Common

variable {E : Type*}

/-! ## The system -/

/-- Where a closure is: in the hands of `enqueue`, accepted, in the task, behind it with what the
    task did, behind the handlers of lines 72–81, or destroyed. The error of a task that did not
    throw is `none`. -/
inductive Closure (E : Type*) where
  | offered
  | queued
  | running
  | left (error : Option E)
  | ended (error : Option E)
  | released (error : Option E)
  | dropped
  deriving DecidableEq, Repr

/-- What can happen to a closure. -/
inductive Move (E : Type*) where
  | accept
  | drop
  | start
  | returns
  | throws (e : E)
  | counts
  | records (e : E)
  | release
  deriving DecidableEq, Repr

/-- The body of the closure (lines 71–82), and what the dispatcher does with it. -/
def Closure.move [DecidableEq E] : Closure E → Move E → Option (Closure E)
  | .offered, .accept => some .queued
  | .offered, .drop => some .dropped
  | .queued, .drop => some .dropped
  | .queued, .start => some .running
  | .running, .returns => some (.left none)
  | .running, .throws e => some (.left (some e))
  | .left none, .counts => some (.ended none)
  | .left (some e), .records e' => if e = e' then some (.ended (some e)) else none
  | .ended error, .release => some (.released error)
  | _, _ => none

/-- A closure that is gone, and with it its slot. -/
def Closure.gone : Closure E → Bool
  | .released _ | .dropped => true
  | _ => false

/-- How `fan_out_and_join` ends. -/
inductive Outcome (E : Type*) where
  | returned
  | rethrown (e : E)
  | incomplete (message : String)
  deriving DecidableEq, Repr

/-- Where the caller is: at the head of the loop, in `enqueue`, behind the loop, in the wait, or
    out of the function. -/
inductive Main (E : Type*) where
  | submitting
  | enqueuing
  | closing (submissionError : Option E)
  | waiting (submissionError : Option E)
  | finished (outcome : Outcome E)
  deriving DecidableEq, Repr

/-- The closures in the order of their submission, the references of `ctrl_impl`, and
    `join_state`. -/
structure State (E : Type*) where
  main : Main E
  closures : List (Closure E) := []
  refs : ℕ := 1
  done : Bool := false
  completed : ℕ := 0
  firstError : Option E := none
  deriving DecidableEq, Repr

inductive Action (E : Type*) where
  | acquire
  | closure (i : ℕ) (m : Move E)
  | enqueueReturns
  | enqueueThrows (e : E)
  | endLoop
  | close
  | fire
  | wake
  deriving DecidableEq, Repr

/-- The text of lines 96–99. -/
def incompleteMessage (label : String) (completed nTasks : ℕ) : String :=
  "[fan_out_and_join] " ++ label ++ ": only " ++ toString completed ++ " of " ++
    toString nTasks ++ " tasks ran — the dispatcher stopped mid-fan-out; refusing to " ++
    "continue with incomplete results"

/-- Lines 92–100. -/
def outcome (label : String) (nTasks : ℕ) (submissionError firstError : Option E)
    (completed : ℕ) : Outcome E :=
  match submissionError with
  | some e => .rethrown e
  | none =>
    match firstError with
    | some e => .rethrown e
    | none =>
      if completed ≠ nTasks then .incomplete (incompleteMessage label completed nTasks)
      else .returned

/-- What a closure does to the members of `join_state` and to the references. -/
def State.after (s : State E) (closures : List (Closure E)) : Move E → State E
  | .drop => { s with closures, refs := s.refs - 1 }
  | .release => { s with closures, refs := s.refs - 1 }
  | .counts => { s with closures, completed := s.completed + 1 }
  | .records e => { s with closures, firstError := s.firstError.or (some e) }
  | _ => { s with closures }

/-- Line 50. -/
def init (nTasks : ℕ) : State E :=
  if nTasks = 0 then { main := .finished .returned } else { main := .submitting }

def step [DecidableEq E] (label : String) (nTasks : ℕ) (s : State E) : Action E → Option (State E)
  | .acquire =>
    if s.main = .submitting ∧ s.closures.length < nTasks then
      some { s with main := .enqueuing, closures := s.closures ++ [Closure.offered], refs := s.refs + 1 }
    else none
  | .closure i m =>
    match s.closures[i]? with
    | none => none
    | some c => (c.move m).map fun c' => s.after (s.closures.set i c') m
  | .enqueueReturns =>
    if s.main = .enqueuing ∧ s.closures.getLast? ≠ some .offered then
      some { s with main := .submitting }
    else none
  | .enqueueThrows e =>
    if s.main = .enqueuing ∧ s.closures.getLast? = some .dropped then
      some { s with main := .closing (some e) }
    else none
  | .endLoop =>
    if s.main = .submitting ∧ s.closures.length = nTasks then
      some { s with main := .closing none }
    else none
  | .close =>
    match s.main with
    | .closing submissionError =>
      some { s with main := .waiting submissionError, refs := s.refs - 1 }
    | _ => none
  | .fire => if s.refs = 0 ∧ s.done = false then some { s with done := true } else none
  | .wake =>
    match s.main with
    | .waiting submissionError =>
      if s.done then
        some { s with
          main := .finished (outcome label nTasks submissionError s.firstError s.completed) }
      else none
    | _ => none

/-! ## One closure -/

namespace Closure

/-- The slot of a closure. -/
def slot (c : Closure E) : ℕ := (!c.gone).toNat

/-- The task returned. -/
def ranThrough : Closure E → Bool
  | .left none | .ended none | .released none => true
  | _ => false

/-- The task counts as completed. -/
def counted : Closure E → ℕ
  | .ended none | .released none => 1
  | _ => 0

/-- The task's error was recorded. -/
def failed : Closure E → Bool
  | .ended (some _) | .released (some _) => true
  | _ => false

/-- The steps that a closure can still take. -/
def rank : Closure E → ℕ
  | .offered => 5
  | .queued => 4
  | .running => 3
  | .left _ => 2
  | .ended _ => 1
  | .released _ | .dropped => 0

end Closure

namespace Move

def frees : Move E → ℕ
  | .drop | .release => 1
  | _ => 0

def counted : Move E → ℕ
  | .counts => 1
  | _ => 0

def returned : Move E → Bool
  | .returns => true
  | _ => false

def recorded : Move E → Option E
  | .records e => some e
  | _ => none

theorem returned_iff {m : Move E} : m.returned = true ↔ .returns = m := by
  cases m <;> simp [returned]

end Move

/-- The moves of a closure. -/
inductive Closure.Moves : Closure E → Move E → Closure E → Prop
  | accept : Moves .offered .accept .queued
  | refuse : Moves .offered .drop .dropped
  | drop : Moves .queued .drop .dropped
  | start : Moves .queued .start .running
  | returns : Moves .running .returns (.left none)
  | throws (e : E) : Moves .running (.throws e) (.left (some e))
  | counts : Moves (.left none) .counts (.ended none)
  | records (e : E) : Moves (.left (some e)) (.records e) (.ended (some e))
  | release (error : Option E) : Moves (.ended error) .release (.released error)

theorem Closure.moves_of_move [DecidableEq E] {c c' : Closure E} {m : Move E} (h : c.move m = some c') :
    Moves c m c' := by
  cases c with
  | offered => cases m <;> cases h <;> constructor
  | queued => cases m <;> cases h <;> constructor
  | running =>
    cases m <;> cases h
    · exact .returns
    · exact .throws _
  | left error =>
    cases error with
    | none =>
      cases m <;> cases h
      exact .counts
    | some e =>
      cases m with
      | records e' =>
        rw [move] at h
        split_ifs at h with he
        cases h
        cases he
        exact .records e
      | _ => cases h
  | ended error =>
    cases m <;> cases h
    exact .release error
  | released error => cases m <;> cases h
  | dropped => cases m <;> cases h

section

variable {c c' : Closure E} {m : Move E} (h : c.Moves m c')
include h

theorem Closure.Moves.slot : c'.slot + m.frees = c.slot := by
  cases h <;> rfl

theorem Closure.Moves.counted : c'.counted = c.counted + m.counted := by
  cases h with
  | release error => cases error <;> rfl
  | _ => rfl

theorem Closure.Moves.failed : c'.failed = (c.failed || m.recorded.isSome) := by
  cases h with
  | release error => cases error <;> rfl
  | _ => rfl

theorem Closure.Moves.ranThrough : c'.ranThrough = (c.ranThrough || m.returned) := by
  cases h with
  | release error => cases error <;> rfl
  | _ => rfl

theorem Closure.Moves.rank : c'.rank < c.rank := by
  cases h <;> simp [Closure.rank]

theorem Closure.Moves.not_gone : c.gone = false := by
  cases h <;> rfl

end

/-- A closure that is not gone can move. -/
theorem Closure.exists_move [DecidableEq E] {c : Closure E} (h : c.gone = false) :
    ∃ m c', c.move m = some c' := by
  cases c with
  | offered => exact ⟨.accept, _, rfl⟩
  | queued => exact ⟨.start, _, rfl⟩
  | running => exact ⟨.returns, _, rfl⟩
  | left error =>
    cases error with
    | none => exact ⟨.counts, _, rfl⟩
    | some e => exact ⟨.records e, _, if_pos rfl⟩
  | ended error => exact ⟨.release, _, rfl⟩
  | released error => cases h
  | dropped => cases h

section After

variable (s : State E) (cs : List (Closure E)) (m : Move E)

theorem State.closures_after : (s.after cs m).closures = cs := by cases m <;> rfl

theorem State.main_after : (s.after cs m).main = s.main := by cases m <;> rfl

theorem State.done_after : (s.after cs m).done = s.done := by cases m <;> rfl

theorem State.refs_after : (s.after cs m).refs = s.refs - m.frees := by cases m <;> rfl

theorem State.completed_after :
    (s.after cs m).completed = s.completed + m.counted := by
  cases m <;> rfl

theorem State.firstError_after : (s.after cs m).firstError = s.firstError.or m.recorded := by
  cases m <;> simp [State.after, Move.recorded]

end After

/-! ## The trace -/

/-- What `enqueue` threw. -/
def enqueueError (as : List (Action E)) : Option E :=
  as.findSome? fun
    | .enqueueThrows e => some e
    | _ => none

/-- The first error that a task's handler recorded. -/
def firstRecorded (as : List (Action E)) : Option E :=
  as.findSome? fun
    | .closure _ m => m.recorded
    | _ => none

/-- The tasks that returned. -/
def Returned (as : List (Action E)) (i : ℕ) : Prop := Action.closure i .returns ∈ as

/-- The reference of the controller. -/
def Main.ref : Main E → ℕ
  | .submitting | .enqueuing | .closing _ => 1
  | .waiting _ | .finished _ => 0

/-- The loop is behind the caller, with what it left in `submission_error`. -/
def Main.pastLoop : Main E → Bool
  | .submitting | .enqueuing => false
  | _ => true

/-- What the tasks have done by the end of a trace. -/
structure Records (as : List (Action E)) (s : State E) : Prop where
  completed : s.completed = total Closure.counted s.closures
  firstError : s.firstError = firstRecorded as
  failed : s.firstError.isSome ↔ ∃ c ∈ s.closures, c.failed = true
  returned : ∀ i, Returned as i ↔ ∃ c, s.closures[i]? = some c ∧ c.ranThrough = true

/-- What holds of the state after a trace. -/
structure Inv (label : String) (nTasks : ℕ) (as : List (Action E)) (s : State E) : Prop where
  records : Records as s
  refs : s.refs = s.main.ref + total Closure.slot s.closures
  done : s.done = true → s.refs = 0
  finished : ∀ o, s.main = .finished o → s.done = true ∧
    o = outcome label nTasks (enqueueError as) s.firstError s.completed
  length : s.closures.length ≤ nTasks
  enqueueError_loop : s.main.pastLoop = false → enqueueError as = none
  enqueueError_main : ∀ r, s.main = .closing r ∨ s.main = .waiting r → enqueueError as = r
  full : s.main.pastLoop = true → enqueueError as = none → s.closures.length = nTasks
  dropped : enqueueError as ≠ none → Closure.dropped ∈ s.closures

variable {label : String} {nTasks : ℕ} {as : List (Action E)} {s s' : State E}

/-- Once the references are gone, the closures are. -/
theorem Inv.gone (h : Inv label nTasks as s) (hdone : s.done = true) :
    ∀ c ∈ s.closures, c.gone = true := by
  intro c hc
  have hle := weight_le_total (w := Closure.slot) hc
  have hrefs := h.refs
  have hzero := h.done hdone
  have hslot : c.slot = 0 := by omega
  simpa [Closure.slot] using hslot

/-! ## The steps -/

theorem Records.closure (h : Records as s) {i : ℕ} {m : Move E} {c c' : Closure E}
    (hi : s.closures[i]? = some c) (hm : c.Moves m c') :
    Records (as ++ [Action.closure i m]) (s.after (s.closures.set i c') m) := by
  have hmem : c ∈ s.closures := List.mem_of_getElem? hi
  have hlt : i < s.closures.length := (List.getElem?_eq_some_iff.mp hi).1
  refine ⟨?_, ?_, ?_, fun j => ?_⟩
  · have hcounts := total_set (w := Closure.counted) hi c'
    have hcount := hm.counted
    rw [State.completed_after, State.closures_after, h.completed]
    omega
  · rw [State.firstError_after, h.firstError, firstRecorded, firstRecorded,
      List.findSome?_append]
    simp
  · rw [State.firstError_after, State.closures_after, Option.isSome_or, Bool.or_eq_true, h.failed]
    constructor
    · rintro (⟨d, hd, hfail⟩ | hrec)
      · obtain ⟨j, hj⟩ := List.mem_iff_getElem?.mp hd
        by_cases hij : i = j
        · subst hij
          rw [hi] at hj
          cases hj
          exact ⟨c', List.mem_set hlt c', by rw [hm.failed, hfail, Bool.true_or]⟩
        · exact ⟨d, List.mem_iff_getElem?.mpr ⟨j, by rw [List.getElem?_set_ne hij, hj]⟩, hfail⟩
      · exact ⟨c', List.mem_set hlt c', by rw [hm.failed, hrec, Bool.or_true]⟩
    · rintro ⟨d, hd, hfail⟩
      rcases List.mem_or_eq_of_mem_set hd with hd | rfl
      · exact .inl ⟨d, hd, hfail⟩
      · rw [hm.failed, Bool.or_eq_true] at hfail
        rcases hfail with hfail | hrec
        · exact .inl ⟨c, hmem, hfail⟩
        · exact .inr hrec
  · rw [Returned, List.mem_append, List.mem_singleton, State.closures_after]
    have hret := h.returned j
    rw [Returned] at hret
    rw [hret]
    by_cases hij : i = j
    · subst hij
      rw [List.getElem?_set_self hlt, hi]
      simp only [Option.some.injEq, exists_eq_left', hm.ranThrough, Bool.or_eq_true,
        Move.returned_iff, Action.closure.injEq, true_and]
    · rw [List.getElem?_set_ne hij]
      simp only [Action.closure.injEq, Ne.symm hij, false_and, or_false]

/-- The caller moves, and may offer a closure. -/
theorem Records.caller (h : Records as s) {a : Action E} (ha : ∀ i m, a ≠ .closure i m)
    (hcompleted : s'.completed = s.completed) (hfirst : s'.firstError = s.firstError)
    (hclosures : s'.closures = s.closures ∨ s'.closures = s.closures ++ [Closure.offered]) :
    Records (as ++ [a]) s' := by
  have hrecorded : firstRecorded (as ++ [a]) = firstRecorded as := by
    rw [firstRecorded, firstRecorded, List.findSome?_append]
    cases a with
    | closure i m => exact absurd rfl (ha i m)
    | _ => simp
  have hreturned (i : ℕ) : Returned (as ++ [a]) i ↔ Returned as i := by
    rw [Returned, Returned, List.mem_append, List.mem_singleton]
    exact or_iff_left fun heq => ha i _ heq.symm
  rcases hclosures with hclosures | hclosures
  · refine ⟨?_, ?_, ?_, fun i => ?_⟩
    · rw [hcompleted, hclosures, h.completed]
    · rw [hfirst, hrecorded, h.firstError]
    · rw [hfirst, hclosures, h.failed]
    · rw [hreturned, hclosures, h.returned]
  · refine ⟨?_, ?_, ?_, fun i => ?_⟩
    · rw [hcompleted, hclosures, h.completed, total_append]
      rfl
    · rw [hfirst, hrecorded, h.firstError]
    · rw [hfirst, hclosures, h.failed]
      simp only [List.mem_append, List.mem_singleton]
      constructor
      · rintro ⟨c, hc, hfail⟩
        exact ⟨c, .inl hc, hfail⟩
      · rintro ⟨c, hc | rfl, hfail⟩
        · exact ⟨c, hc, hfail⟩
        · cases hfail
    · rw [hreturned, hclosures, h.returned]
      constructor
      · rintro ⟨c, hc, hran⟩
        have hlt : i < s.closures.length := (List.getElem?_eq_some_iff.mp hc).1
        exact ⟨c, by rwa [List.getElem?_append_left hlt], hran⟩
      · rintro ⟨c, hc, hran⟩
        rw [List.getElem?_append] at hc
        split_ifs at hc with hlt
        · exact ⟨c, hc, hran⟩
        · obtain rfl := List.mem_singleton.mp (List.mem_of_getElem? hc)
          cases hran

/-- A closure moves. -/
theorem Inv.closure (h : Inv label nTasks as s) {i : ℕ} {m : Move E} {c c' : Closure E}
    (hi : s.closures[i]? = some c) (hm : c.Moves m c') :
    Inv label nTasks (as ++ [Action.closure i m]) (s.after (s.closures.set i c') m) := by
  have hmem : c ∈ s.closures := List.mem_of_getElem? hi
  have hdone : s.done = false := by
    by_contra hne
    have := h.gone (by simpa using hne) c hmem
    rw [hm.not_gone] at this
    cases this
  have henqueue : enqueueError (as ++ [Action.closure i m]) = enqueueError as := by
    simp [enqueueError, List.findSome?_append]
  refine ⟨h.records.closure hi hm, ?_, ?_, ?_, ?_, ?_, ?_, ?_, ?_⟩
  · have hslots := total_set (w := Closure.slot) hi c'
    have hslot := hm.slot
    have := h.refs
    have := weight_le_total (w := Closure.slot) hmem
    rw [State.refs_after, State.main_after, State.closures_after]
    omega
  · rw [State.done_after, hdone]
    exact fun h => nomatch h
  · intro o ho
    rw [State.main_after] at ho
    have := (h.finished o ho).1
    rw [hdone] at this
    cases this
  · rw [State.closures_after, List.length_set]
    exact h.length
  · rw [State.main_after, henqueue]
    exact h.enqueueError_loop
  · rw [State.main_after, henqueue]
    exact h.enqueueError_main
  · rw [State.main_after, State.closures_after, henqueue, List.length_set]
    exact h.full
  · rw [State.closures_after, henqueue]
    intro hne
    obtain ⟨j, hj⟩ := List.mem_iff_getElem?.mp (h.dropped hne)
    refine List.mem_iff_getElem?.mpr ⟨j, ?_⟩
    rw [List.getElem?_set_ne, hj]
    rintro rfl
    rw [hi] at hj
    cases hj
    cases hm

theorem enqueueError_concat (as : List (Action E)) {a : Action E}
    (ha : ∀ e, a ≠ .enqueueThrows e) :
    enqueueError (as ++ [a]) = enqueueError as := by
  rw [enqueueError, enqueueError, List.findSome?_append]
  cases a with
  | enqueueThrows e => exact absurd rfl (ha e)
  | _ => simp

theorem Inv.init (hpos : 0 < nTasks) : Inv label nTasks ([] : List (Action E)) (init nTasks) := by
  rw [FanOutJoin.init, if_neg (by omega)]
  have hrecords : Records ([] : List (Action E)) { main := .submitting } :=
    ⟨rfl, rfl, by simp, fun i => by simp [Returned]⟩
  refine ⟨hrecords, rfl, ?_, ?_, Nat.zero_le _, fun _ => rfl, ?_, ?_, fun hne => absurd rfl hne⟩
  · exact fun h => nomatch h
  · exact fun _ h => nomatch h
  · rintro r (h | h) <;> cases h
  · exact fun h => nomatch h

variable [DecidableEq E]

/-- What holds after a trace holds after one more step. -/
theorem Inv.step (h : Inv label nTasks as s) {a : Action E}
    (hs : step label nTasks s a = some s') : Inv label nTasks (as ++ [a]) s' := by
  have hrefs := h.refs
  cases a with
  | acquire =>
    rw [FanOutJoin.step] at hs
    split_ifs at hs with hguard
    cases hs
    obtain ⟨hmain, hlt⟩ := hguard
    have henqueue := enqueueError_concat as (a := Action.acquire (E := E)) (by simp)
    have hnone := h.enqueueError_loop (by rw [hmain]; rfl)
    rw [hmain] at hrefs
    refine ⟨h.records.caller (by simp) rfl rfl (.inr rfl), ?_, ?_, ?_, ?_, ?_, ?_, ?_, ?_⟩
    · rw [total_append, hrefs]
      rfl
    · intro hdone
      have := h.done hdone
      dsimp only [Main.ref] at hrefs
      omega
    · exact fun o ho => nomatch ho
    · simpa using hlt
    · intro _
      rw [henqueue, hnone]
    · rintro r (ho | ho) <;> cases ho
    · exact fun ho => nomatch ho
    · intro hne
      rw [henqueue, hnone] at hne
      exact absurd rfl hne
  | closure i m =>
    rw [FanOutJoin.step] at hs
    cases hi : s.closures[i]? with
    | none =>
      rw [hi] at hs
      cases hs
    | some c =>
      rw [hi] at hs
      obtain ⟨c', hc', rfl⟩ := Option.map_eq_some_iff.mp hs
      exact h.closure hi (Closure.moves_of_move hc')
  | enqueueReturns =>
    rw [FanOutJoin.step] at hs
    split_ifs at hs with hguard
    cases hs
    obtain ⟨hmain, -⟩ := hguard
    have henqueue := enqueueError_concat as (a := Action.enqueueReturns (E := E)) (by simp)
    have hnone := h.enqueueError_loop (by rw [hmain]; rfl)
    rw [hmain] at hrefs
    refine ⟨h.records.caller (by simp) rfl rfl (.inl rfl), hrefs, h.done, ?_, h.length, ?_, ?_, ?_,
      ?_⟩
    · exact fun o ho => nomatch ho
    · intro _
      rw [henqueue, hnone]
    · rintro r (ho | ho) <;> cases ho
    · exact fun ho => nomatch ho
    · rw [henqueue]
      exact h.dropped
  | enqueueThrows e =>
    rw [FanOutJoin.step] at hs
    split_ifs at hs with hguard
    cases hs
    obtain ⟨hmain, hlast⟩ := hguard
    have hnone := h.enqueueError_loop (by rw [hmain]; rfl)
    have henqueue : enqueueError (as ++ [Action.enqueueThrows e]) = some e := by
      rw [enqueueError] at hnone ⊢
      rw [List.findSome?_append, hnone]
      rfl
    rw [hmain] at hrefs
    refine ⟨h.records.caller (by simp) rfl rfl (.inl rfl), hrefs, h.done, ?_, h.length, ?_, ?_, ?_,
      ?_⟩
    · exact fun o ho => nomatch ho
    · exact fun ho => nomatch ho
    · rintro r (ho | ho)
      · cases ho
        exact henqueue
      · cases ho
    · intro _ hne
      rw [henqueue] at hne
      cases hne
    · exact fun _ => List.mem_of_getLast? hlast
  | endLoop =>
    rw [FanOutJoin.step] at hs
    split_ifs at hs with hguard
    cases hs
    obtain ⟨hmain, hfull⟩ := hguard
    have henqueue := enqueueError_concat as (a := Action.endLoop (E := E)) (by simp)
    have hnone := h.enqueueError_loop (by rw [hmain]; rfl)
    rw [hmain] at hrefs
    refine ⟨h.records.caller (by simp) rfl rfl (.inl rfl), hrefs, h.done, ?_, h.length, ?_, ?_, ?_,
      ?_⟩
    · exact fun o ho => nomatch ho
    · exact fun ho => nomatch ho
    · rintro r (ho | ho)
      · cases ho
        rw [henqueue, hnone]
      · cases ho
    · exact fun _ _ => hfull
    · rw [henqueue]
      exact h.dropped
  | close =>
    rw [FanOutJoin.step] at hs
    cases hmain : s.main with
    | closing r =>
      rw [hmain] at hs hrefs
      cases hs
      have henqueue := enqueueError_concat as (a := Action.close (E := E)) (by simp)
      refine ⟨h.records.caller (by simp) rfl rfl (.inl rfl), ?_, ?_, ?_, h.length, ?_, ?_, ?_, ?_⟩
      · dsimp only [Main.ref] at hrefs ⊢
        omega
      · intro hdone
        have := h.done hdone
        dsimp only
        omega
      · exact fun o ho => nomatch ho
      · exact fun ho => nomatch ho
      · rintro r' (ho | ho)
        · cases ho
        · cases ho
          rw [henqueue, h.enqueueError_main r (.inl hmain)]
      · rw [henqueue]
        exact fun _ => h.full (by rw [hmain]; rfl)
      · rw [henqueue]
        exact h.dropped
    | _ =>
      rw [hmain] at hs
      cases hs
  | fire =>
    rw [FanOutJoin.step] at hs
    split_ifs at hs with hguard
    cases hs
    have henqueue := enqueueError_concat as (a := Action.fire (E := E)) (by simp)
    refine ⟨h.records.caller (by simp) rfl rfl (.inl rfl), hrefs, fun _ => hguard.1, ?_, h.length,
      ?_, ?_, ?_, ?_⟩
    · rw [henqueue]
      exact fun o ho => ⟨rfl, (h.finished o ho).2⟩
    · rw [henqueue]
      exact h.enqueueError_loop
    · rw [henqueue]
      exact h.enqueueError_main
    · rw [henqueue]
      exact h.full
    · rw [henqueue]
      exact h.dropped
  | wake =>
    rw [FanOutJoin.step] at hs
    cases hmain : s.main with
    | waiting r =>
      rw [hmain] at hs hrefs
      dsimp only at hs
      split_ifs at hs with hdone
      cases hs
      have henqueue := enqueueError_concat as (a := Action.wake (E := E)) (by simp)
      refine ⟨h.records.caller (by simp) rfl rfl (.inl rfl), hrefs, h.done, ?_, h.length, ?_, ?_, ?_,
        ?_⟩
      · intro o ho
        cases ho
        rw [henqueue, h.enqueueError_main r (.inr hmain)]
        exact ⟨hdone, rfl⟩
      · exact fun ho => nomatch ho
      · rintro r' (ho | ho) <;> cases ho
      · rw [henqueue]
        exact fun _ => h.full (by rw [hmain]; rfl)
      · rw [henqueue]
        exact h.dropped
    | _ =>
      rw [hmain] at hs
      cases hs

/-! ## No run is stuck, none is without end -/

def Main.rank : Main E → ℕ
  | .enqueuing => 4
  | .submitting => 3
  | .closing _ => 2
  | .waiting _ => 1
  | .finished _ => 0

/-- The steps that are left. -/
def work (nTasks : ℕ) (s : State E) : ℕ :=
  7 * (nTasks - s.closures.length) + total Closure.rank s.closures + s.main.rank +
    (!s.done).toNat

theorem work_step {a : Action E} (hs : FanOutJoin.step label nTasks s a = some s') :
    work nTasks s' < work nTasks s := by
  cases a with
  | acquire =>
    rw [FanOutJoin.step] at hs
    split_ifs at hs with hguard
    cases hs
    simp only [work, hguard.1, Main.rank, total_append, total_cons, total_nil, Closure.rank,
      List.length_append, List.length_cons, List.length_nil]
    have := hguard.2
    omega
  | closure i m =>
    rw [FanOutJoin.step] at hs
    cases hi : s.closures[i]? with
    | none =>
      rw [hi] at hs
      cases hs
    | some c =>
      rw [hi] at hs
      obtain ⟨c', hc', rfl⟩ := Option.map_eq_some_iff.mp hs
      have hrank := (Closure.moves_of_move hc').rank
      have htotal := total_set (w := Closure.rank) hi c'
      simp only [work, State.closures_after, State.main_after, State.done_after, List.length_set]
      omega
  | enqueueReturns | enqueueThrows _ | endLoop =>
    rw [FanOutJoin.step] at hs
    split_ifs at hs with hguard
    cases hs
    simp only [work, hguard.1, Main.rank]
    omega
  | close =>
    rw [FanOutJoin.step] at hs
    cases hmain : s.main with
    | closing r =>
      rw [hmain] at hs
      cases hs
      simp only [work, hmain, Main.rank]
      omega
    | _ =>
      rw [hmain] at hs
      cases hs
  | fire =>
    rw [FanOutJoin.step] at hs
    split_ifs at hs with hguard
    cases hs
    simp only [work, hguard.2, Bool.not_true, Bool.not_false, Bool.toNat_true, Bool.toNat_false]
    omega
  | wake =>
    rw [FanOutJoin.step] at hs
    cases hmain : s.main with
    | waiting r =>
      rw [hmain] at hs
      dsimp only at hs
      split_ifs at hs with hdone
      cases hs
      simp only [work, hmain, Main.rank]
      omega
    | _ =>
      rw [hmain] at hs
      cases hs

/-- **Until the caller is out, something can happen.** -/
theorem Inv.progress (h : Inv label nTasks as s) (hmain : ∀ o, s.main ≠ .finished o) :
    ∃ a s', FanOutJoin.step label nTasks s a = some s' := by
  -- a closure that is not gone moves
  have hclosure {c : Closure E} (hc : c ∈ s.closures) (hgone : c.gone = false) :
      ∃ a s', FanOutJoin.step label nTasks s a = some s' := by
    obtain ⟨i, hi⟩ := List.mem_iff_getElem?.mp hc
    obtain ⟨m, c', hc'⟩ := Closure.exists_move hgone
    exact ⟨.closure i m, s.after (s.closures.set i c') m, by simp [FanOutJoin.step, hi, hc']⟩
  cases hm : s.main with
  | submitting =>
    rcases Nat.lt_or_eq_of_le h.length with hlt | heq
    · exact ⟨.acquire, _, if_pos ⟨hm, hlt⟩⟩
    · exact ⟨.endLoop, _, if_pos ⟨hm, heq⟩⟩
  | enqueuing =>
    by_cases hlast : s.closures.getLast? = some .offered
    · exact hclosure (List.mem_of_getLast? hlast) rfl
    · exact ⟨.enqueueReturns, _, if_pos ⟨hm, hlast⟩⟩
  | closing r => exact ⟨.close, _, by rw [FanOutJoin.step, hm]⟩
  | waiting r =>
    by_cases hdone : s.done = true
    · refine ⟨.wake, { s with
        main := .finished (outcome label nTasks r s.firstError s.completed) }, ?_⟩
      rw [FanOutJoin.step, hm]
      exact if_pos hdone
    · by_cases hzero : s.refs = 0
      · exact ⟨.fire, _, if_pos ⟨hzero, by simpa using hdone⟩⟩
      · have hrefs := h.refs
        rw [hm, Main.ref] at hrefs
        obtain ⟨i, c, hi, hpos⟩ := exists_of_total_pos (w := Closure.slot) (l := s.closures)
          (by omega)
        refine hclosure (List.mem_of_getElem? hi) ?_
        cases hgone : c.gone with
        | false => rfl
        | true => simp [Closure.slot, hgone] at hpos
  | finished o => exact absurd hm (hmain o)

/-! ## The contract -/

/-- When the caller is out, nothing can happen any more. -/
theorem Inv.step_finished (h : Inv label nTasks as s) {o : Outcome E} (ho : s.main = .finished o)
    (a : Action E) : FanOutJoin.step label nTasks s a = none := by
  have hdone := (h.finished o ho).1
  cases a with
  | closure i m =>
    rw [FanOutJoin.step]
    cases hi : s.closures[i]? with
    | none => rfl
    | some c =>
      have hgone := h.gone hdone c (List.mem_of_getElem? hi)
      cases hm : c.move m with
      | none => simp only [hm, Option.map_none]
      | some c' =>
        rw [(Closure.moves_of_move hm).not_gone] at hgone
        cases hgone
  | _ => simp [FanOutJoin.step, ho, hdone]

omit [DecidableEq E] in
/-- The caller returns if every task did. -/
theorem Inv.returned_iff (h : Inv label nTasks as s) {o : Outcome E} (ho : s.main = .finished o) :
    o = .returned ↔ ∀ i < nTasks, Returned as i := by
  obtain ⟨hdone, rfl⟩ := h.finished o ho
  have hgone := h.gone hdone
  have hle : ∀ c ∈ s.closures, c.counted ≤ 1 := by
    intro c _
    rw [Closure.counted.eq_def]
    split <;> omega
  have hcounted : ∀ c ∈ s.closures, c.counted = 1 ↔ c.ranThrough = true := by
    intro c hc
    have := hgone c hc
    cases c with
    | released error => cases error <;> simp [Closure.counted, Closure.ranThrough]
    | dropped => simp [Closure.counted, Closure.ranThrough]
    | _ => cases this
  constructor
  · intro hreturned i hi
    rw [outcome.eq_def] at hreturned
    split at hreturned
    · cases hreturned
    · rename_i hnone
      split at hreturned
      · cases hreturned
      · split_ifs at hreturned with hcompleted
        rw [not_not, h.records.completed] at hcompleted
        have hlength := h.full (by rw [ho]; rfl) hnone
        have hall := (total_eq_length_iff hle).mp (hcompleted.trans hlength.symm)
        obtain ⟨c, hc⟩ : ∃ c, s.closures[i]? = some c :=
          ⟨_, List.getElem?_eq_getElem (by omega)⟩
        have hmem := List.mem_of_getElem? hc
        exact (h.records.returned i).mpr ⟨c, hc, (hcounted c hmem).mp (hall c hmem)⟩
  · intro hall
    have hran : ∀ c ∈ s.closures, c.ranThrough = true := by
      intro c hc
      obtain ⟨i, hi⟩ := List.mem_iff_getElem?.mp hc
      have hlt : i < s.closures.length := (List.getElem?_eq_some_iff.mp hi).1
      obtain ⟨c', hc', hran⟩ := (h.records.returned i).mp (hall i (hlt.trans_le h.length))
      rw [hi] at hc'
      cases hc'
      exact hran
    have hnone : enqueueError as = none := by
      by_contra hne
      exact absurd (hran _ (h.dropped hne)) (by simp [Closure.ranThrough])
    have hfirst : s.firstError = none := by
      by_contra hne
      obtain ⟨c, hc, hfailed⟩ := h.records.failed.mp (Option.isSome_iff_ne_none.mpr hne)
      have := hran c hc
      cases c with
      | released error | ended error => cases error <;> simp_all [Closure.failed, Closure.ranThrough]
      | _ => cases hfailed
    have hcompleted : s.completed = nTasks := by
      rw [h.records.completed, ← h.full (by rw [ho]; rfl) hnone, total_eq_length_iff hle]
      exact fun c hc => (hcounted c hc).mpr (hran c hc)
    rw [outcome.eq_def, hnone, hfirst]
    exact if_neg (not_not.mpr hcompleted)

theorem run_inv (hpos : 0 < nTasks)
    (h : run (FanOutJoin.step label nTasks) (init nTasks) as = some s) :
    Inv label nTasks as s :=
  run_trace_invariant (Inv.init hpos) (fun _ _ _ _ _ hinv hs => hinv.step hs) h

/-- Without tasks there is nothing to do. -/
theorem eq_init_of_zero (h : run (FanOutJoin.step label 0) (init 0) as = some s) :
    as = [] ∧ s = init 0 := by
  have hstep (a : Action E) : FanOutJoin.step label 0 (init 0) a = none := by
    cases a <;> simp [FanOutJoin.step, init]
  cases as with
  | nil => exact ⟨rfl, (Option.some.inj h).symm⟩
  | cons a as =>
    rw [run_cons, hstep] at h
    cases h

/-- What the caller throws, if it does not return. -/
def thrown (label : String) (nTasks : ℕ) (as : List (Action E)) (completed : ℕ) : Outcome E :=
  match enqueueError as with
  | some e => .rethrown e
  | none =>
    match firstRecorded as with
    | some e => .rethrown e
    | none => .incomplete (incompleteMessage label completed nTasks)

/-- **The contract of `fan_out_and_join`**, for every dispatcher, all tasks and every
    interleaving: when the caller is out, every closure is gone and nothing can happen any more;
    it returns if every task ran to its end without throwing, else it throws what `enqueue` threw,
    else the first recorded error of a task, else that the results are incomplete. Until then
    something can happen, and it cannot go on for ever. -/
theorem fan_out_and_join_contract (label : String) (nTasks : ℕ) (as : List (Action E))
    (s : State E) (h : run (FanOutJoin.step label nTasks) (init nTasks) as = some s) :
    (∀ o, s.main = .finished o →
      (∀ c ∈ s.closures, c.gone = true) ∧
      (∀ a, FanOutJoin.step label nTasks s a = none) ∧
      (o = .returned ↔ ∀ i < nTasks, Returned as i) ∧
      (o ≠ .returned → o = thrown label nTasks as s.completed)) ∧
    ((∀ o, s.main ≠ .finished o) → ∃ a s', FanOutJoin.step label nTasks s a = some s') ∧
    as.length ≤ 7 * nTasks + 4 := by
  rcases Nat.eq_zero_or_pos nTasks with rfl | hpos
  · obtain ⟨rfl, rfl⟩ := eq_init_of_zero h
    refine ⟨fun o ho => ?_, fun hmain => absurd rfl (hmain _), Nat.zero_le _⟩
    cases ho
    refine ⟨fun c hc => (nomatch hc), fun a => ?_, by simp, fun hne => absurd rfl hne⟩
    cases a <;> simp [FanOutJoin.step, init]
  · have hinv := run_inv hpos h
    refine ⟨fun o ho => ⟨hinv.gone (hinv.finished o ho).1, hinv.step_finished ho,
      hinv.returned_iff ho, fun hne => ?_⟩, hinv.progress, ?_⟩
    · obtain ⟨-, rfl⟩ := hinv.finished o ho
      rw [outcome.eq_def] at hne ⊢
      rw [thrown, ← hinv.records.firstError]
      cases henqueue : enqueueError as with
      | some e => rfl
      | none =>
        rw [henqueue] at hne
        cases hfirst : s.firstError with
        | some e => rfl
        | none =>
          rw [hfirst] at hne
          dsimp only at hne ⊢
          split_ifs at hne ⊢ with hcompleted
          · rfl
          · exact absurd rfl hne
    · have hle := length_run_le (work nTasks) (I := fun _ => True)
        (fun _ _ _ _ _ => trivial) (fun _ _ _ _ => work_step) trivial h
      have hstart : work nTasks (init nTasks : State E) = 7 * nTasks + 4 := by
        rw [init, if_neg (by omega)]
        simp [work, Main.rank]
      omega

/-- The second of two tasks is dropped while the first one runs, and the first one throws. -/
def dropAndThrow : List (Action ℕ) :=
  [.acquire, .closure 0 .accept, .closure 0 .start, .enqueueReturns, .acquire, .closure 1 .drop,
    .enqueueReturns, .endLoop, .close, .closure 0 (.throws 7), .closure 0 (.records 7),
    .closure 0 .release, .fire, .wake]

theorem fan_out_and_join_two :
    ∃ s : State ℕ, run (FanOutJoin.step "masks" 2) (init 2) dropAndThrow = some s ∧
      s.main = .finished (.rethrown 7) ∧ ∀ c ∈ s.closures, c.gone = true := by
  have h : run (FanOutJoin.step "masks" 2) (init 2) dropAndThrow =
      some { main := .finished (.rethrown 7)
             closures := [.released (some 7), .dropped]
             refs := 0
             done := true
             completed := 0
             firstError := some 7 } := by decide +kernel
  exact ⟨_, h, rfl, ((fan_out_and_join_contract "masks" 2 dropAndThrow _ h).1 _ rfl).1⟩

end Sirius.ScanManager.FanOutJoin
