import Sirius.Common.Run
import Sirius.Exec.SemiFuture

/-!
# The stages of a future

The stages that `semi_future` builds (src/exec/semi_future.hpp:686-810), and that a chain of them
gives the same result in both modes, whatever its source delivers and when. At the source a
promise and a consumer meet in a core; their steps are taken one by one.

* `Race`: `set_try` against `set_callback`, step by step. The callback runs once.
* `Stage`, `build`: the stages and the chain of them.
* `value_build`: the result is the fold of the stages.
* `both_modes_fold_once`: both modes give it, and call each stage once.
-/

namespace Sirius.Exec.SemiFuture

open Sirius.Common

/-! ## Two sides of a core -/

/-- Where a side is: before its write, before its exchange, before `run_and_complete`, or done. -/
inductive Side where
  | start
  | written
  | lost
  | finished
  deriving DecidableEq, Repr

/-- A core, its two sides, and what the callback did. -/
structure Race (τ β : Type*) where
  core : Core τ β
  producer : Side
  consumer : Side
  ran : List β

namespace Race

variable {τ β : Type*} (moved : τ → τ) (t : τ) (cb : τ → β)

def start (t₀ : τ) : Race τ β :=
  { core := .fresh t₀, producer := .start, consumer := .start, ran := [] }

/-- `run_and_complete`, by the side that lost the exchange. -/
def complete (r : Race τ β) : Race τ β :=
  let done := r.core.runAndComplete moved
  { r with core := done.1, ran := r.ran ++ done.2.toList }

/-- A step of `set_try` (lines 278–294) or of `set_callback` (lines 297–310). -/
def step (r : Race τ β) (isProducer : Bool) : Option (Race τ β) :=
  if isProducer then
    match r.producer with
    | .start => some { r with core := { r.core with result := t }, producer := .written }
    | .written =>
      if r.core.state = .empty then
        some { r with core := { r.core with state := .hasResult }, producer := .finished }
      else some { r with producer := .lost }
    | .lost => some { r.complete moved with producer := .finished }
    | .finished => none
  else
    match r.consumer with
    | .start => some { r with core := { r.core with callback := some cb }, consumer := .written }
    | .written =>
      if r.core.state = .empty then
        some { r with core := { r.core with state := .hasCallback }, consumer := .finished }
      else some { r with consumer := .lost }
    | .lost => some { r.complete moved with consumer := .finished }
    | .finished => none

/-- The side that comes first to the exchange leaves the callback to the other. -/
inductive Inv : Race τ β → Prop
  | empty {result callback producer consumer} (hp : producer = .start ∨
      producer = .written ∧ result = t) (hc : consumer = .start ∨
      consumer = .written ∧ callback = some cb) :
    Inv ⟨⟨.empty, result, callback⟩, producer, consumer, []⟩
  | hasResult {callback consumer} (hc : consumer = .start ∨
      (consumer = .written ∨ consumer = .lost) ∧ callback = some cb) :
    Inv ⟨⟨.hasResult, t, callback⟩, .finished, consumer, []⟩
  | hasCallback {result producer} (hp : producer = .start ∨
      (producer = .written ∨ producer = .lost) ∧ result = t) :
    Inv ⟨⟨.hasCallback, result, some cb⟩, producer, .finished, []⟩
  | done {result callback} : Inv ⟨⟨.done, result, callback⟩, .finished, .finished, [cb t]⟩

variable {moved t cb}

theorem Inv.step {r r' : Race τ β} {isProducer : Bool} (h : Inv t cb r)
    (hstep : r.step moved t cb isProducer = some r') : Inv t cb r' := by
  cases h with
  | empty hp hc =>
    cases isProducer with
    | true =>
      rcases hp with rfl | ⟨rfl, rfl⟩
      · cases hstep
        exact .empty (.inr ⟨rfl, rfl⟩) hc
      · cases hstep
        refine .hasResult ?_
        rcases hc with rfl | ⟨rfl, rfl⟩
        · exact .inl rfl
        · exact .inr ⟨.inl rfl, rfl⟩
    | false =>
      rcases hc with rfl | ⟨rfl, rfl⟩
      · cases hstep
        exact .empty hp (.inr ⟨rfl, rfl⟩)
      · cases hstep
        refine .hasCallback ?_
        rcases hp with rfl | ⟨rfl, rfl⟩
        · exact .inl rfl
        · exact .inr ⟨.inl rfl, rfl⟩
  | hasResult hc =>
    cases isProducer with
    | true => cases hstep
    | false =>
      rcases hc with rfl | ⟨rfl | rfl, rfl⟩
      · cases hstep
        exact .hasResult (.inr ⟨.inl rfl, rfl⟩)
      · cases hstep
        exact .hasResult (.inr ⟨.inr rfl, rfl⟩)
      · cases hstep
        exact .done
  | hasCallback hp =>
    cases isProducer with
    | false => cases hstep
    | true =>
      rcases hp with rfl | ⟨rfl | rfl, rfl⟩
      · cases hstep
        exact .hasCallback (.inr ⟨.inl rfl, rfl⟩)
      · cases hstep
        exact .hasCallback (.inr ⟨.inr rfl, rfl⟩)
      · cases hstep
        exact .done
  | done => cases isProducer <;> cases hstep

/-- In every order of the steps of the two sides, the callback has run on the result once when both
    have finished, and not before. -/
theorem ran_eq {t₀ : τ} {r : Race τ β} {sides : List Bool}
    (h : run (step moved t cb) (start t₀) sides = some r) :
    r.ran = if r.producer = .finished ∧ r.consumer = .finished then [cb t] else [] := by
  have hinv : Inv t cb r :=
    run_invariant (fun _ _ _ h hstep => h.step hstep) (.empty (.inl rfl) (.inl rfl)) h
  cases hinv with
  | empty hp hc =>
    rw [if_neg]
    rintro ⟨rfl, -⟩
    rcases hp with hp | ⟨hp, -⟩ <;> cases hp
  | hasResult hc =>
    rw [if_neg]
    rintro ⟨-, rfl⟩
    rcases hc with hc | ⟨hc | hc, -⟩ <;> cases hc
  | hasCallback hp =>
    rw [if_neg]
    rintro ⟨rfl, -⟩
    rcases hp with hp | ⟨hp | hp, -⟩ <;> cases hp
  | done => rfl

end Race

/-! ## Stages -/

variable {ε α : Type}

/-- The stages of a chain (lines 686–784). The function of `defer` and of `defer_value` returns a
    value, a `try_t` or a future; `ofVoid` says that the value before the stage has type `void`. -/
inductive Stage (ε α : Type) where
  | defer (f : Try ε α → Except ε α)
  | deferTry (f : Try ε α → Except ε (Try ε α))
  | deferFuture (raises : Try ε α → Option ε) (inner : Try ε α → Chain ε α)
  | deferValue (ofVoid : Bool) (f : α → Except ε α)
  | deferValueTry (ofVoid : Bool) (f : α → Except ε (Try ε α))
  | deferValueFuture (ofVoid : Bool) (raises : α → Option ε) (inner : α → Chain ε α)
  | deferError (catches : ε → Bool) (f : ε → Except ε α)
  | deferEnsure (f : Except ε Unit)
  | unit

namespace Stage

variable (unitValue : α) (badAccess : ε)

/-- What `defer_value` calls its function with (lines 718–722, 568–578). -/
def argument (ofVoid : Bool) : Try ε α → Except ε α
  | .exception e => .error e
  | .value v => .ok v
  | .empty => if ofVoid then .ok unitValue else .error badAccess

/-- The function of `defer_error` (lines 728–762). The one with a tag catches some types, the one
    without all. -/
def errorFn (catches : ε → Bool) (f : ε → Except ε α) : Try ε α → Except ε (Try ε α)
  | .exception e => if catches e then (f e).map .value else .ok (.exception e)
  | t => .ok t

/-- The function of `unit` (lines 778–784). -/
def unitFn : Try ε α → Except ε (Try ε α)
  | .exception e => .ok (.exception e)
  | _ => .ok (.value unitValue)

/-- The stage on a chain. -/
def attach (stage : Stage ε α) (label : ℕ) (c : Chain ε α) : Chain ε α :=
  match stage with
  | defer f => .deferred c label fun t => (f t).map .value
  | deferTry f => .deferred c label f
  | deferFuture raises inner => .flatMap c label raises inner none
  | deferValue ofVoid f =>
    .deferred c label fun t => do
      let v ← argument unitValue badAccess ofVoid t
      (f v).map .value
  | deferValueTry ofVoid f =>
    .deferred c label fun t => do
      let v ← argument unitValue badAccess ofVoid t
      f v
  | deferValueFuture ofVoid raises inner =>
    .flatMap c label
      (fun t =>
        match argument unitValue badAccess ofVoid t with
        | .error e => some e
        | .ok v => raises v)
      (fun t =>
        match argument unitValue badAccess ofVoid t with
        | .error e => .ready (.exception e)
        | .ok v => inner v)
      none
  | deferError catches f => .deferred c label (errorFn catches f)
  | deferEnsure f => .deferred c label fun t => f.map fun _ => t
  | unit => .deferred c label (unitFn unitValue)

/-- The futures that the functions of the stage return are such that nobody has waited on. -/
def InnerBuilt : Stage ε α → Prop
  | deferFuture _ inner => ∀ t, (inner t).Built
  | deferValueFuture _ _ inner => ∀ v, (inner v).Built
  | _ => True

/-- The result of a function that returns a value or throws. -/
def ofCall : Except ε α → Try ε α
  | .ok v => .value v
  | .error e => .exception e

/-- What becomes of a value when the function of a stage handles it. -/
def onValue (t : Try ε α) (ofVoid : Bool) (f : α → Try ε α) : Try ε α :=
  match t with
  | .exception e => .exception e
  | .value v => f v
  | .empty => if ofVoid then f unitValue else .exception badAccess

/-- What a stage makes of the result before it. -/
def apply (stage : Stage ε α) (t : Try ε α) : Try ε α :=
  match stage with
  | defer f => ofCall (f t)
  | deferTry f => caught (f t)
  | deferFuture raises inner => (raises t).elim (inner t).value .exception
  | deferValue ofVoid f => onValue unitValue badAccess t ofVoid fun v => ofCall (f v)
  | deferValueTry ofVoid f => onValue unitValue badAccess t ofVoid fun v => caught (f v)
  | deferValueFuture ofVoid raises inner =>
    onValue unitValue badAccess t ofVoid fun v => (raises v).elim (inner v).value .exception
  | deferError catches f =>
    match t with
    | .exception e => if catches e then ofCall (f e) else t
    | _ => t
  | deferEnsure f =>
    match f with
    | .ok _ => t
    | .error e => .exception e
  | unit =>
    match t with
    | .exception e => .exception e
    | _ => .value unitValue

variable {unitValue badAccess}

theorem caught_map (r : Except ε α) : caught (r.map Try.value) = ofCall r := by
  cases r <;> rfl

theorem caught_argument (ofVoid : Bool) (f : α → Except ε (Try ε α)) (t : Try ε α) :
    caught (argument unitValue badAccess ofVoid t >>= f) =
      onValue unitValue badAccess t ofVoid fun v => caught (f v) := by
  cases t with
  | exception e => rfl
  | value v => rfl
  | empty => cases ofVoid <;> rfl

/-- A stage on a chain gives what it makes of the result of the chain. -/
theorem value_attach (stage : Stage ε α) (label : ℕ) (c : Chain ε α) :
    (stage.attach unitValue badAccess label c).value =
      stage.apply unitValue badAccess c.value := by
  cases stage with
  | defer f => exact caught_map _
  | deferTry f => rfl
  | deferFuture raises inner =>
    simp only [attach, Chain.value, apply]
    cases raises c.value <;> rfl
  | deferValue ofVoid f =>
    simp only [attach, Chain.value, apply, caught_argument, caught_map]
  | deferValueTry ofVoid f => exact caught_argument ofVoid f c.value
  | deferValueFuture ofVoid raises inner =>
    simp only [attach, Chain.value, apply]
    cases c.value with
    | exception e => rfl
    | value v =>
      simp only [argument, onValue]
      cases raises v <;> rfl
    | empty =>
      cases ofVoid with
      | true =>
        simp only [argument, onValue, if_true]
        cases raises unitValue <;> rfl
      | false => rfl
  | deferError catches f =>
    simp only [attach, Chain.value, apply]
    cases c.value with
    | exception e =>
      simp only [errorFn]
      split_ifs
      · exact caught_map _
      · rfl
    | value v => rfl
    | empty => rfl
  | deferEnsure f => cases f <;> rfl
  | unit =>
    simp only [attach, Chain.value, apply]
    cases c.value <;> rfl

theorem built_attach {stage : Stage ε α} (h : stage.InnerBuilt) (label : ℕ) {c : Chain ε α}
    (hc : c.Built) : (stage.attach unitValue badAccess label c).Built := by
  cases stage with
  | deferFuture raises inner => exact ⟨rfl, hc, h⟩
  | deferValueFuture ofVoid raises inner =>
    refine ⟨rfl, hc, fun t => ?_⟩
    cases harg : argument unitValue badAccess ofVoid t with
    | error e =>
      simp only [harg]
      trivial
    | ok v =>
      simp only [harg]
      exact h v
  | _ => exact hc

end Stage

/-! ## Chains of stages -/

/-- What a chain starts from: a promise with the result that it is given, or that its destruction
    gives it, before or after the consumption starts; or a ready value. -/
inductive Source (ε α : Type) where
  | promise (resultFirst : Bool) (t : Try ε α)
  | ready (t : Try ε α)

namespace Source

def chain : Source ε α → Chain ε α
  | promise resultFirst t => .leaf resultFirst t
  | ready t => .ready t

def result : Source ε α → Try ε α
  | promise _ t => t
  | ready t => t

end Source

section Build

variable (unitValue : α) (badAccess : ε)

/-- The chain of the stages, each with a label. -/
def build (c : Chain ε α) (stages : List (ℕ × Stage ε α)) : Chain ε α :=
  stages.foldl (fun c s => s.2.attach unitValue badAccess s.1 c) c

variable {unitValue badAccess}

theorem value_build (c : Chain ε α) (stages : List (ℕ × Stage ε α)) :
    (build unitValue badAccess c stages).value =
      stages.foldl (fun t s => s.2.apply unitValue badAccess t) c.value := by
  induction stages generalizing c with
  | nil => rfl
  | cons s stages ih =>
    rw [build, List.foldl_cons, List.foldl_cons, ← Stage.value_attach s.2 s.1 c]
    exact ih _

theorem built_build {c : Chain ε α} (hc : c.Built) {stages : List (ℕ × Stage ε α)}
    (h : ∀ s ∈ stages, s.2.InnerBuilt) : (build unitValue badAccess c stages).Built := by
  induction stages generalizing c with
  | nil => exact hc
  | cons s stages ih =>
    rw [List.forall_mem_cons] at h
    exact ih (Stage.built_attach h.1 s.1 hc) h.2

end Build

/-- **Both modes give the fold of the stages.** For every source and every result of it, early or
    late, and all stages, whatever their functions do: pulling the chain and installing a callback
    on it both deliver once, both deliver the fold of the stages over the result, and both call the
    functions of the stages in order, each once. And where the callback meets the result, it runs
    once, in every order of the steps of the two sides. -/
theorem both_modes_fold_once (moved : Try ε α → Try ε α) (unitValue : α) (badAccess : ε)
    (source : Source ε α) (stages : List (ℕ × Stage ε α))
    (hinner : ∀ s ∈ stages, s.2.InnerBuilt) :
    let c := build unitValue badAccess source.chain stages
    let fold := stages.foldl (fun t s => s.2.apply unitValue badAccess t) source.result
    (resultsOf (c.getTry moved) = [fold] ∧ resultsOf (c.installCallback moved) = [fold]) ∧
      (stagesOf (c.getTry moved) = c.stages ∧ stagesOf (c.installCallback moved) = c.stages) ∧
      ∀ (cb : Try ε α → List (Event ε α)) (sides : List Bool) (r : Race (Try ε α) _),
        run (Race.step moved source.result cb) (Race.start .empty) sides = some r →
          r.ran = if r.producer = .finished ∧ r.consumer = .finished then [cb source.result]
            else [] := by
  intro c fold
  have hsource : source.chain.Built ∧ source.chain.value = source.result := by
    cases source <;> exact ⟨trivial, rfl⟩
  have hbuilt : c.Built := built_build hsource.1 hinner
  have hvalue : c.value = fold := by
    rw [value_build, hsource.2]
  rw [Chain.getTry_eq moved hbuilt, Chain.installCallback_eq,
    Chain.resultsOf_delivered, Chain.stagesOf_delivered, hvalue]
  exact ⟨⟨rfl, rfl⟩, ⟨rfl, rfl⟩, fun cb sides r h => Race.ran_eq h⟩

/-- A stage that adds one, and one that returns the future of a promise that is late. -/
def sampleStages : List (ℕ × Stage Unit ℕ) :=
  [(0, .deferValue false fun v => .ok (v + 1)),
    (1, .deferFuture (fun _ => none) fun t => .leaf false t)]

theorem both_modes_fold_once_sample :
    let c := build 0 () (Source.promise true (.value 4)).chain sampleStages
    (∀ s ∈ sampleStages, s.2.InnerBuilt) ∧ resultsOf (c.getTry id) = [.value 5] ∧
      resultsOf (c.installCallback id) = [.value 5] ∧ stagesOf (c.installCallback id) = [0, 1] := by
  have hinner : ∀ s ∈ sampleStages, s.2.InnerBuilt := by
    simp only [sampleStages, List.forall_mem_cons, List.not_mem_nil, false_imp_iff, implies_true,
      and_true]
    exact ⟨trivial, fun _ => trivial⟩
  have h := both_modes_fold_once id 0 () (.promise true (.value 4)) sampleStages hinner
  exact ⟨hinner, h.1.1, h.1.2, h.2.1.2⟩

end Sirius.Exec.SemiFuture
