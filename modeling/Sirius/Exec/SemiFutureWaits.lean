import Sirius.Exec.SemiFuture

/-!
# Waiting on a future

`wait` is documented not to consume the future (src/exec/semi_future.hpp:660-680), but on a
flattening stage it consumes the chain before the stage and caches the result, and the push of a
flattening stage (lines 1138–1152) does not look at the cache.

* `waitAll_eq`: any waits are like one, or like none.
* `wait_transparent_iff`: waits do not show exactly when the chain is pulled, or all timed out, or
  no stage of the chain flattens.
-/

namespace Sirius.Exec.SemiFuture

variable {ε α : Type*}

/-- A completed wait, or a timed one and whether the result of a leaf arrives before its
    deadline. -/
inductive Wait where
  | wait
  | waitFor (inTime : Bool)
  deriving DecidableEq, Repr

/-- The ways to consume a chain. -/
inductive Consumption where
  | getTry
  | installCallback
  deriving DecidableEq, Repr

namespace Chain

variable (moved : Try ε α → Try ε α)

/-- One wait: the chain afterwards, and what happened. -/
def doWait (c : Chain ε α) : Wait → Chain ε α × List (Event ε α)
  | .wait => c.await moved
  | .waitFor inTime => (c.awaitUntil moved inTime).2

/-- Waits, one after the other. -/
def waitAll : Chain ε α → List Wait → Chain ε α × List (Event ε α)
  | c, [] => (c, [])
  | c, w :: ws =>
    let a := c.doWait moved w
    let b := waitAll a.1 ws
    (b.1, a.2 ++ b.2)

/-- What happens when the chain is consumed. -/
def consumeBy (c : Chain ε α) : Consumption → List (Event ε α)
  | .getTry => c.getTry moved
  | .installCallback => c.installCallback moved

/-- What happens in all when the chain is consumed after some waits. -/
def consumeAfter (c : Chain ε α) (ws : List Wait) (by_ : Consumption) : List (Event ε α) :=
  let a := c.waitAll moved ws
  a.2 ++ a.1.consumeBy moved by_

/-- The result of the first core of the chain has not arrived. -/
def pending : Chain ε α → Bool
  | leaf arrived _ => !arrived
  | ready _ => false
  | deferred upstream _ _ => pending upstream
  | flatMap upstream _ _ _ cached => cached.isNone && pending upstream

/-- A stage of the chain flattens, and has cached nothing. -/
def flattens : Chain ε α → Bool
  | leaf _ _ => false
  | ready _ => false
  | deferred upstream _ _ => flattens upstream
  | flatMap _ _ _ _ cached => cached.isNone

/-- The wait ends at its deadline. -/
def TimesOut (c : Chain ε α) (w : Wait) : Prop := w = .waitFor false ∧ c.pending = true

instance (c : Chain ε α) (w : Wait) : Decidable (c.TimesOut w) :=
  inferInstanceAs (Decidable (_ ∧ _))

variable {moved} {c : Chain ε α}

/-! ## One wait -/

/-- After a wait there is nothing to do for another one. -/
theorem await_await (c : Chain ε α) :
    (c.await moved).1.await moved = ((c.await moved).1, []) := by
  induction c with
  | leaf arrived t => rfl
  | ready t => rfl
  | deferred upstream stage fn ih => simp only [await, ih]
  | flatMap upstream stage raises inner cached ih ihInner =>
    cases cached with
    | some r => rfl
    | none =>
      simp only [await]
      cases raises (upstream.consume moved).result with
      | some e => rfl
      | none => rfl

/-- A chain before a flattening stage may be waited on first. -/
theorem await_flatMap_await (upstream : Chain ε α) (stage : ℕ) (raises : Try ε α → Option ε)
    (inner : Try ε α → Chain ε α) :
    let a := upstream.await moved
    let b := (flatMap a.1 stage raises inner none).await moved
    (b.1, a.2 ++ b.2) = (flatMap upstream stage raises inner none).await moved := by
  obtain ⟨hresult, hrest, hlog⟩ := consume_await moved upstream
  simp only [await, hresult, hrest, ← hlog]
  cases raises (upstream.consume moved).result with
  | some e => simp only [List.append_assoc]
  | none => simp only [List.append_assoc]

/-- A timed wait does nothing, or what a wait does. -/
theorem awaitUntil_eq (inTime : Bool) (c : Chain ε α) :
    c.awaitUntil moved inTime =
      if c.TimesOut (.waitFor inTime) then (false, c, []) else (true, c.await moved) := by
  induction c with
  | leaf arrived t => cases arrived <;> cases inTime <;> rfl
  | ready t => cases inTime <;> rfl
  | deferred upstream stage fn ih =>
    have hsame : (deferred upstream stage fn).TimesOut (.waitFor inTime) ↔
        upstream.TimesOut (.waitFor inTime) := Iff.rfl
    simp only [awaitUntil, ih, hsame]
    split_ifs <;> rfl
  | flatMap upstream stage raises inner cached ih ihInner =>
    cases cached with
    | some r => simp [awaitUntil, TimesOut, pending, await]
    | none =>
      have hsame : (flatMap upstream stage raises inner none).TimesOut (.waitFor inTime) ↔
          upstream.TimesOut (.waitFor inTime) := Iff.rfl
      by_cases htime : upstream.TimesOut (.waitFor inTime)
      · rw [if_pos (hsame.mpr htime)]
        simp only [awaitUntil, ih, if_pos htime]
        rfl
      · rw [if_neg (fun h => htime (hsame.mp h)), ← await_flatMap_await]
        simp only [awaitUntil, ih, if_neg htime]
        rfl

theorem doWait_eq (c : Chain ε α) (w : Wait) :
    c.doWait moved w = if c.TimesOut w then (c, []) else c.await moved := by
  cases w with
  | wait => rw [doWait, if_neg (fun h => nomatch h.1)]
  | waitFor inTime =>
    rw [doWait, awaitUntil_eq]
    split_ifs <;> rfl

/-! ## Any waits -/

/-- Waits are like one, or like none if all ended at their deadlines. -/
theorem waitAll_eq (c : Chain ε α) (ws : List Wait) :
    c.waitAll moved ws = if ∀ w ∈ ws, c.TimesOut w then (c, []) else c.await moved := by
  induction ws generalizing c with
  | nil => rw [waitAll, if_pos (by simp)]
  | cons w ws ih =>
    simp only [waitAll, doWait_eq, List.forall_mem_cons]
    by_cases hw : c.TimesOut w
    · simp only [ih, hw, true_and, if_true, List.nil_append]
    · -- the chain is awaited, and the other waits find nothing to do
      have hrest : (c.await moved).1.waitAll moved ws = ((c.await moved).1, []) := by
        rw [ih, await_await]
        split_ifs <;> rfl
      simp only [hrest, List.append_nil, hw, false_and, if_false]

/-- What a pull gives after waits, it gives without. -/
theorem getTry_await (c : Chain ε α) :
    (c.await moved).2 ++ (c.await moved).1.getTry moved = c.getTry moved := by
  obtain ⟨hresult, -, hlog⟩ := consume_await moved c
  rw [getTry_eq_consume, getTry_eq_consume, ← List.append_assoc, hlog, hresult]

/-- A wait on a chain without flattening stages only waits. -/
theorem await_of_not_flattens (moved : Try ε α → Try ε α) (h : c.flattens = false) :
    (c.await moved).2 = [] ∧ (c.await moved).1.calls = c.calls ∧
      (c.await moved).1.value = c.value := by
  induction c with
  | leaf arrived t => exact ⟨rfl, rfl, rfl⟩
  | ready t => exact ⟨rfl, rfl, rfl⟩
  | deferred upstream stage fn ih =>
    obtain ⟨hlog, hcalls, hvalue⟩ := ih h
    simp only [await, hlog, calls, hcalls, hvalue, value, and_self]
  | flatMap upstream stage raises inner cached ih ihInner =>
    cases cached with
    | none => cases h
    | some r => exact ⟨rfl, rfl, rfl⟩

/-- A wait on a flattening stage calls what a push will call again. -/
theorem length_stages_await (moved : Try ε α → Try ε α) (hbuilt : c.Built) (h : c.flattens = true) :
    c.stages.length < (stagesOf (c.await moved).2).length + (c.await moved).1.stages.length := by
  induction c with
  | leaf arrived t => cases h
  | ready t => cases h
  | deferred upstream stage fn ih =>
    have := ih hbuilt h
    simp only [await, stages, List.length_append, List.length_singleton]
    omega
  | flatMap upstream stage raises inner cached ih ihInner =>
    obtain ⟨rfl, hup, hinner⟩ := hbuilt
    -- what the wait calls is all that the stage would call
    have hlog : stagesOf ((flatMap upstream stage raises inner none).await moved).2 =
        (flatMap upstream stage raises inner none).stages := by
      obtain ⟨hresult, hlog⟩ := consume_eq moved hup
      rw [← stagesOf_calls]
      simp only [await, calls, hresult, hlog]
      cases raises upstream.value with
      | some e => rfl
      | none => simp only [(consume_eq moved (hinner upstream.value)).2]
    have hpos : 0 < ((flatMap upstream stage raises inner none).await moved).1.stages.length := by
      simp only [await]
      cases raises (upstream.consume moved).result <;> simp [stages]
    rw [hlog]
    omega

/-! ## Transparency -/

/-- Waits do not show: the chain delivers what it delivers without them, and each stage is called
    once, as it is without them. -/
structure Transparent (moved : Try ε α → Try ε α) (c : Chain ε α) (ws : List Wait)
    (way : Consumption) : Prop where
  delivered : resultsOf (c.consumeAfter moved ws way) = resultsOf (c.consumeBy moved way)
  called : ∀ stage, (stagesOf (c.consumeAfter moved ws way)).count stage =
    (stagesOf (c.consumeBy moved way)).count stage
  once : ∀ stage, (stagesOf (c.consumeAfter moved ws way)).count stage = c.stages.count stage

theorem stagesOf_consumeBy (hbuilt : c.Built) (way : Consumption) :
    stagesOf (c.consumeBy moved way) = c.stages := by
  cases way with
  | getTry => rw [consumeBy, getTry_eq moved hbuilt, stagesOf_delivered]
  | installCallback => rw [consumeBy, installCallback_eq, stagesOf_delivered]

theorem transparent_of_eq (hbuilt : c.Built) {ws : List Wait} {way : Consumption}
    (h : c.consumeAfter moved ws way = c.consumeBy moved way) : Transparent moved c ws way := by
  refine ⟨by rw [h], fun stage => by rw [h], fun stage => ?_⟩
  rw [h, stagesOf_consumeBy hbuilt]

/-- **When waiting does not show.** For any chain, any waits and both ways to consume it, what is
    delivered and the calls of each stage function are those without the waits exactly when the
    chain is pulled, or all the waits ended at their deadlines, or no stage of the chain itself
    flattens. -/
theorem wait_transparent_iff (moved : Try ε α → Try ε α) (c : Chain ε α) (hbuilt : c.Built)
    (ws : List Wait) (way : Consumption) :
    Transparent moved c ws way ↔
      way = .getTry ∨ (∀ w ∈ ws, c.TimesOut w) ∨ c.flattens = false := by
  constructor
  · intro h
    by_contra hnot
    simp only [not_or, Bool.not_eq_false] at hnot
    obtain ⟨hway, hready, hflat⟩ := hnot
    cases way with
    | getTry => exact hway rfl
    | installCallback =>
      have hperm : (stagesOf (c.consumeAfter moved ws .installCallback)).Perm c.stages :=
        List.perm_iff_count.mpr h.once
      have hlength := hperm.length_eq
      have hmore := length_stages_await moved hbuilt hflat
      rw [consumeAfter, waitAll_eq, if_neg hready, consumeBy, installCallback_eq] at hlength
      rw [← stagesOf_calls (c.await moved).1] at hmore
      simp only [stagesOf, List.filterMap_append, List.length_append, List.filterMap_cons_none,
        List.filterMap_nil, List.length_nil] at hlength hmore
      omega
  · intro h
    refine transparent_of_eq hbuilt ?_
    rw [consumeAfter, waitAll_eq]
    split_ifs with htime
    · rfl
    · rcases h with rfl | h | h
      · exact getTry_await c
      · exact absurd h htime
      · obtain ⟨hlog, hcalls, hvalue⟩ := await_of_not_flattens moved h
        cases way with
        | getTry => exact getTry_await c
        | installCallback =>
          simp only [consumeBy, installCallback_eq, hlog, hcalls, hvalue, List.nil_append]

/-- What a move leaves of a vector. -/
def movedVector : Try Unit (List ℕ) → Try Unit (List ℕ)
  | .value _ => .value []
  | t => t

/-- A future of a vector, and a stage that returns a ready future of it. -/
def flattened : Chain Unit (List ℕ) :=
  flatMap (leaf true (.value [1])) 0 (fun _ => none) ready none

theorem flattened_built : flattened.Built := ⟨rfl, trivial, fun _ => trivial⟩

/-- After a wait, a push calls the stage again, with what the move has left. -/
theorem push_after_wait :
    resultsOf (flattened.consumeBy movedVector .installCallback) = [.value [1]] ∧
      resultsOf (flattened.consumeAfter movedVector [.wait] .installCallback) = [.value []] ∧
      stagesOf (flattened.consumeAfter movedVector [.wait] .installCallback) = [0, 0] ∧
      ¬Transparent movedVector flattened [.wait] .installCallback := by
  refine ⟨rfl, rfl, rfl, fun h => ?_⟩
  have := h.once 0
  exact absurd this (by decide)

theorem wait_transparent_flattened :
    flattened.Built ∧ Transparent movedVector flattened [.wait, .waitFor false] .getTry :=
  ⟨flattened_built,
    (wait_transparent_iff movedVector flattened flattened_built _ _).mpr (.inl rfl)⟩

end Chain

end Sirius.Exec.SemiFuture
