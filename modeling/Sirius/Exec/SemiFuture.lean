import Mathlib

/-!
# Chains of futures

Model of the states behind `semi_future` (src/exec/semi_future.hpp:263-395, 410-564, 686-810,
1138-1152): a chain is a core shared with a promise, or a ready value, and the stages deferred on
it. It is consumed by pulling (`await` and `consume`) or by pushing (`set_callback`). What happens
is a list of events: the calls of the stage functions, and what is delivered at the end. Values of
all types are of one type `α`, exceptions of type `ε`, and what a move leaves of a `try_t` is given
by the parameter `moved`.

* `Core`: the slot between a promise and its future.
* `Chain`: a chain, with what the flattening stages have cached.
* `Chain.value`, `Chain.calls`: what a chain means.
* `getTry_eq`, `installCallback_eq`: both ways of consuming a chain give this.
-/

namespace Sirius.Exec.SemiFuture

/-- `try_t`: nothing, a value or an exception. -/
inductive Try (ε α : Type*) where
  | empty
  | value (v : α)
  | exception (e : ε)
  deriving DecidableEq, Repr

/-! ## The core -/

/-- The states of a `core`. -/
inductive CoreState where
  | empty
  | hasResult
  | hasCallback
  | done
  deriving DecidableEq, Repr

/-- `core`: its state word, its `_try` and its `_callback`. What a callback does is of type `β`. -/
structure Core (τ β : Type*) where
  state : CoreState
  result : τ
  callback : Option (τ → β)

namespace Core

variable {τ β : Type*}

/-- A core before anything has happened to it. -/
def fresh (t : τ) : Core τ β := { state := .empty, result := t, callback := none }

/-- `run_and_complete` (lines 369–378), and what the callback did. -/
def runAndComplete (moved : τ → τ) (core : Core τ β) : Core τ β × Option β :=
  ({ state := .done, result := moved core.result, callback := none },
    core.callback.map fun cb => cb core.result)

/-- `core::set_try` (lines 278–294). -/
def setTry (moved : τ → τ) (core : Core τ β) (t : τ) : Core τ β × Option β :=
  let core := { core with result := t }
  match core.state with
  | .empty => ({ core with state := .hasResult }, none)
  | _ => core.runAndComplete moved

/-- `core::set_callback` (lines 297–310). -/
def setCallback (moved : τ → τ) (core : Core τ β) (cb : τ → β) : Core τ β × Option β :=
  let core := { core with callback := some cb }
  match core.state with
  | .empty => ({ core with state := .hasCallback }, none)
  | _ => core.runAndComplete moved

/-- A result and a callback reach a core, the result first or the callback first. -/
def deliver (moved : τ → τ) (resultFirst : Bool) (t : τ) (cb : τ → β) : Option β :=
  let core : Core τ β := fresh t
  if resultFirst then ((core.setTry moved t).1.setCallback moved cb).2
  else ((core.setCallback moved cb).1.setTry moved t).2

/-- The callback runs once, on the result, whichever comes first. -/
theorem deliver_eq (moved : τ → τ) (resultFirst : Bool) (t : τ) (cb : τ → β) :
    deliver moved resultFirst t cb = some (cb t) := by
  cases resultFirst <;> rfl

end Core

/-! ## Chains -/

variable {ε α : Type*}

/-- What happens when a chain is consumed: a stage function is called, or a result is given to the
    consumer. -/
inductive Event (ε α : Type*) where
  | call (stage : ℕ) (arg : Try ε α)
  | delivered (t : Try ε α)
  deriving DecidableEq, Repr

/-- The stages that were called, in order. -/
def stagesOf (log : List (Event ε α)) : List ℕ :=
  log.filterMap fun
    | .call stage _ => some stage
    | .delivered _ => none

/-- What was delivered, in order. -/
def resultsOf (log : List (Event ε α)) : List (Try ε α) :=
  log.filterMap fun
    | .call _ _ => none
    | .delivered t => some t

/-- The states of a chain. A leaf has the result of its promise, and whether it has arrived. The
    function of a flattening stage throws (`raises`) or returns a future (`inner`). -/
inductive Chain (ε α : Type*) where
  | leaf (arrived : Bool) (t : Try ε α)
  | ready (t : Try ε α)
  | deferred (upstream : Chain ε α) (stage : ℕ) (fn : Try ε α → Except ε (Try ε α))
  | flatMap (upstream : Chain ε α) (stage : ℕ) (raises : Try ε α → Option ε)
    (inner : Try ε α → Chain ε α) (cached : Option (Try ε α))

/-- The result of a call in a `try` block. -/
def caught : Except ε (Try ε α) → Try ε α
  | .ok t => t
  | .error e => .exception e

/-- What a consumed chain gave, what is left of it, and what happened. -/
structure Pulled (ε α : Type*) where
  result : Try ε α
  rest : Chain ε α
  log : List (Event ε α)

namespace Chain

section Pull

variable (moved : Try ε α → Try ε α)

/-- `consume`. A flattening stage first fills its cache, as `await` does, from the chain before it
    and from the future that its function returns. That future is pulled by `get_try`, for which
    `consume` stands (`consume_await`). -/
def consume : Chain ε α → Pulled ε α
  | leaf _ t => { result := t, rest := leaf true (moved t), log := [] }
  | ready t => { result := t, rest := ready (moved t), log := [] }
  | deferred upstream stage fn =>
    let u := consume upstream
    { result := caught (fn u.result)
      rest := deferred u.rest stage fn
      log := u.log ++ [Event.call stage u.result] }
  | flatMap upstream stage raises inner cached =>
    match cached with
    | some r =>
      { result := r, rest := flatMap upstream stage raises inner (some (moved r)), log := [] }
    | none =>
      let u := consume upstream
      match raises u.result with
      | some e =>
        { result := .exception e
          rest := flatMap u.rest stage raises inner (some (moved (.exception e)))
          log := u.log ++ [Event.call stage u.result] }
      | none =>
        let r := consume (inner u.result)
        { result := r.result
          rest := flatMap u.rest stage raises inner (some (moved r.result))
          log := u.log ++ Event.call stage u.result :: r.log }

/-- `await`: the chain afterwards, and what happened. -/
def await : Chain ε α → Chain ε α × List (Event ε α)
  | leaf _ t => (leaf true t, [])
  | ready t => (ready t, [])
  | deferred upstream stage fn =>
    let a := await upstream
    (deferred a.1 stage fn, a.2)
  | flatMap upstream stage raises inner cached =>
    match cached with
    | some r => (flatMap upstream stage raises inner (some r), [])
    | none =>
      let u := consume moved upstream
      match raises u.result with
      | some e =>
        (flatMap u.rest stage raises inner (some (.exception e)),
          u.log ++ [Event.call stage u.result])
      | none =>
        let r := consume moved (inner u.result)
        (flatMap u.rest stage raises inner (some r.result), u.log ++ Event.call stage u.result :: r.log)

/-- `await_until`. `inTime` says whether the result of a leaf arrives before the deadline. -/
def awaitUntil (inTime : Bool) : Chain ε α → Bool × Chain ε α × List (Event ε α)
  | leaf arrived t => (arrived || inTime, leaf (arrived || inTime) t, [])
  | ready t => (true, ready t, [])
  | deferred upstream stage fn =>
    let a := awaitUntil inTime upstream
    (a.1, deferred a.2.1 stage fn, a.2.2)
  | flatMap upstream stage raises inner cached =>
    match cached with
    | some r => (true, flatMap upstream stage raises inner (some r), [])
    | none =>
      let a := awaitUntil inTime upstream
      let c := flatMap a.2.1 stage raises inner none
      if a.1 then (true, (c.await moved).1, a.2.2 ++ (c.await moved).2)
      else (false, c, a.2.2)

/-- `semi_future::get_try` (lines 651–658). -/
def getTry (c : Chain ε α) : List (Event ε α) :=
  let a := c.await moved
  let p := a.1.consume moved
  a.2 ++ p.log ++ [Event.delivered p.result]

/-- `set_callback`. A callback is what it does with the result; on a leaf it runs when both have
    arrived. The cache of a flattening stage is not read (lines 1138–1152). -/
def setCallback : Chain ε α → (Try ε α → List (Event ε α)) → List (Event ε α)
  | leaf arrived t, cb => (Core.deliver moved arrived t cb).getD []
  | ready t, cb => cb t
  | deferred upstream stage fn, cb =>
    setCallback upstream fun u => .call stage u :: cb (caught (fn u))
  | flatMap upstream stage raises inner _, cb =>
    setCallback upstream fun u =>
      .call stage u ::
        match raises u with
        | some e => cb (.exception e)
        | none => setCallback (inner u) cb

/-- `semi_future::install_callback` (lines 798–804), and what `then_try` does with the chain (lines
    1003–1041). -/
def installCallback (c : Chain ε α) : List (Event ε α) :=
  c.setCallback moved fun t => [.delivered t]

end Pull

/-! ## What a chain means -/

/-- The result of a chain: each stage is applied to the result of those before it. -/
def value : Chain ε α → Try ε α
  | leaf _ t => t
  | ready t => t
  | deferred upstream _ fn => caught (fn (value upstream))
  | flatMap upstream _ raises inner _ =>
    match raises (value upstream) with
    | some e => .exception e
    | none => value (inner (value upstream))

/-- The calls of a chain: each stage once, in order, and behind a flattening stage those of the
    future that its function returns. -/
def calls : Chain ε α → List (Event ε α)
  | leaf _ _ => []
  | ready _ => []
  | deferred upstream stage _ => calls upstream ++ [Event.call stage (value upstream)]
  | flatMap upstream stage raises inner _ =>
    calls upstream ++ Event.call stage (value upstream) ::
      match raises (value upstream) with
      | some _ => []
      | none => calls (inner (value upstream))

/-- The stages that the result of a chain comes from: all of them, and behind a flattening stage
    those of the future that its function returns. -/
def stages : Chain ε α → List ℕ
  | leaf _ _ => []
  | ready _ => []
  | deferred upstream stage _ => stages upstream ++ [stage]
  | flatMap upstream stage raises inner _ =>
    stages upstream ++ stage ::
      match raises (value upstream) with
      | some _ => []
      | none => stages (inner (value upstream))

theorem stagesOf_calls (c : Chain ε α) : stagesOf c.calls = c.stages := by
  induction c with
  | leaf arrived t => rfl
  | ready t => rfl
  | deferred upstream stage fn ih =>
    rw [calls, stages, ← ih]
    simp [stagesOf]
  | flatMap upstream stage raises inner cached ih ihInner =>
    rw [calls, stages, ← ih]
    cases raises upstream.value with
    | some e => simp [stagesOf]
    | none => simp [stagesOf, ← ihInner]

theorem resultsOf_calls (c : Chain ε α) : resultsOf c.calls = [] := by
  induction c with
  | leaf arrived t => rfl
  | ready t => rfl
  | deferred upstream stage fn ih =>
    rw [resultsOf] at ih ⊢
    simp [calls, ih]
  | flatMap upstream stage raises inner cached ih ihInner =>
    rw [resultsOf] at ih ⊢
    simp only [resultsOf] at ihInner
    cases hraises : raises upstream.value with
    | some e => simp [calls, ih, hraises]
    | none => simp [calls, ih, hraises, ihInner]

theorem resultsOf_delivered (c : Chain ε α) :
    resultsOf (c.calls ++ [Event.delivered c.value]) = [c.value] := by
  have hcalls := resultsOf_calls c
  rw [resultsOf] at hcalls ⊢
  rw [List.filterMap_append, hcalls]
  rfl

theorem stagesOf_delivered (c : Chain ε α) :
    stagesOf (c.calls ++ [Event.delivered c.value]) = c.stages := by
  rw [← stagesOf_calls]
  simp [stagesOf]

/-- A chain that nobody has waited on, in which no function returns one that somebody has. -/
def Built : Chain ε α → Prop
  | leaf _ _ => True
  | ready _ => True
  | deferred upstream _ _ => Built upstream
  | flatMap upstream _ _ inner cached => cached = none ∧ Built upstream ∧ ∀ u, Built (inner u)

variable (moved : Try ε α → Try ε α)

/-- Pulling. -/
theorem consume_eq {c : Chain ε α} (h : c.Built) :
    (c.consume moved).result = c.value ∧ (c.consume moved).log = c.calls := by
  induction c with
  | leaf arrived t => exact ⟨rfl, rfl⟩
  | ready t => exact ⟨rfl, rfl⟩
  | deferred upstream stage fn ih =>
    obtain ⟨hresult, hlog⟩ := ih h
    simp only [consume, hresult, hlog, value, calls, and_self]
  | flatMap upstream stage raises inner cached ih ihInner =>
    obtain ⟨rfl, hup, hinner⟩ := h
    obtain ⟨hresult, hlog⟩ := ih hup
    simp only [consume, hresult, hlog, value, calls]
    cases raises upstream.value with
    | some e => exact ⟨rfl, rfl⟩
    | none =>
      obtain ⟨hresult, hlog⟩ := ihInner _ (hinner upstream.value)
      simp only [hresult, hlog, and_self]

/-- Pushing, on any chain: what has been cached is not used. -/
theorem setCallback_eq (c : Chain ε α) (cb : Try ε α → List (Event ε α)) :
    c.setCallback moved cb = c.calls ++ cb c.value := by
  induction c generalizing cb with
  | leaf arrived t =>
    rw [setCallback, Core.deliver_eq]
    rfl
  | ready t => rfl
  | deferred upstream stage fn ih =>
    rw [setCallback, ih, calls, value, List.append_assoc]
    rfl
  | flatMap upstream stage raises inner cached ih ihInner =>
    rw [setCallback, ih, calls, value, List.append_assoc, List.cons_append]
    cases raises upstream.value with
    | some e => rfl
    | none => simp only [ihInner]

/-- A wait changes neither what pulling gives, nor what is left, nor what happens in all. -/
theorem consume_await (c : Chain ε α) :
    ((c.await moved).1.consume moved).result = (c.consume moved).result ∧
      ((c.await moved).1.consume moved).rest = (c.consume moved).rest ∧
      (c.await moved).2 ++ ((c.await moved).1.consume moved).log = (c.consume moved).log := by
  induction c with
  | leaf arrived t => exact ⟨rfl, rfl, rfl⟩
  | ready t => exact ⟨rfl, rfl, rfl⟩
  | deferred upstream stage fn ih =>
    obtain ⟨hresult, hrest, hlog⟩ := ih
    simp only [await, consume, hresult, hrest, ← hlog, List.append_assoc, and_self]
  | flatMap upstream stage raises inner cached ih ihInner =>
    cases cached with
    | some r => exact ⟨rfl, rfl, rfl⟩
    | none =>
      simp only [await, consume]
      cases raises (upstream.consume moved).result with
      | some e => simp [consume]
      | none => simp [consume]

theorem getTry_eq_consume (c : Chain ε α) :
    c.getTry moved = (c.consume moved).log ++ [Event.delivered (c.consume moved).result] := by
  obtain ⟨hresult, -, hlog⟩ := consume_await moved c
  simp only [getTry, hresult, hlog]

theorem getTry_eq {c : Chain ε α} (h : c.Built) :
    c.getTry moved = c.calls ++ [Event.delivered c.value] := by
  obtain ⟨hresult, hlog⟩ := consume_eq moved h
  rw [getTry_eq_consume, hresult, hlog]

theorem installCallback_eq (c : Chain ε α) :
    c.installCallback moved = c.calls ++ [Event.delivered c.value] :=
  setCallback_eq moved c _

end Chain

end Sirius.Exec.SemiFuture
