import Sirius.Common.Run

/-!
# The fan-in of a grouped read

Model of `grouped_coordinator` (`src/io/io_request.hpp`, lines 58–203). Every credit is
held by one operation, which settles it by `on_complete` or `report_error`; the phases of a
credit are the points of these calls between which other threads can act. The loops around
`compare_exchange_weak` take effect at their successful exchange.

`std::size_t` is `ℕ`, with the bound that `add_tasks` asserts.

* `step`: one atomic step of one call.
* `Inv`, `inv_step`: what every step preserves.
* `promise_fulfilled_once`: what the promise is given, and when.
-/

namespace Sirius.Io.GroupedCoordinator

open Sirius.Common

/-- What the promise is given: an exception, or the declared byte count. -/
abbrev Outcome (Exn : Type) := Except Exn ℕ

/-- Where the call that settles a credit is. -/
inductive Phase (X Exn : Type) where
  /-- not settled, and no call has begun -/
  | held
  /-- in `report_error`, before the exchange of `_continue` -/
  | reporting (error : X)
  /-- this call cleared `_continue`, and has not stored the exception -/
  | won (error : X)
  /-- in `settle_one`, before the exchange -/
  | settling
  /-- the last credit: before the critical section of `resolve_if_ready` -/
  | resolving
  /-- after that section, before the promise is set -/
  | fulfilling (outcome : Outcome Exn)
  | done
  deriving DecidableEq, Repr

/-- Where the call of `get_future` is. -/
inductive Getter (Exn : Type) where
  | idle
  | resolving
  | fulfilling (outcome : Outcome Exn)
  | done
  deriving DecidableEq, Repr

/-- The members of a coordinator and the calls on it. `winner` is the error of the call that
    cleared `_continue`, `reports` the errors of all calls of `report_error`, and `promise` what
    the promise was set to. -/
structure Coordinator (X Exn : Type) where
  bytesRequested : ℕ
  tasksRemaining : ℕ
  continue_ : Bool := true
  firstException : Option Exn := none
  futureTaken : Bool := false
  fulfilled : Bool := false
  promise : List (Outcome Exn) := []
  credits : List (Phase X Exn)
  getter : Getter Exn := .idle
  winner : Option X := none
  reports : List X := []

variable {X Exn : Type}

/-- The constructor: one credit for each prepared slice. -/
def create (bytes initialTasks : ℕ) : Coordinator X Exn :=
  { bytesRequested := bytes, tasksRemaining := initialTasks
    credits := List.replicate initialTasks .held }

/-- The steps of the calls, by the credit that they hold, and of `get_future`. -/
inductive Act (X : Type) where
  | addTasks (i count : ℕ)
  | onComplete (i : ℕ)
  | reportError (i : ℕ) (error : X)
  | claim (i : ℕ)
  | store (i : ℕ)
  | settle (i : ℕ)
  | resolve (i : ℕ)
  | fulfil (i : ℕ)
  | getFuture
  | resolveFuture
  | fulfilFuture
  deriving DecidableEq, Repr

/-- The call with credit `i` is at `phase`. -/
def Coordinator.set (s : Coordinator X Exn) (i : ℕ) (phase : Phase X Exn) : Coordinator X Exn :=
  { s with credits := s.credits.set i phase }

/-- The test of `resolve_if_ready` (line 172). -/
def Coordinator.ready (s : Coordinator X Exn) : Bool :=
  !(s.tasksRemaining != 0 || !s.futureTaken || s.fulfilled)

/-- What `resolve_if_ready` gives the promise (lines 179–183). -/
def Coordinator.outcome (s : Coordinator X Exn) : Outcome Exn :=
  match s.firstException with
  | some exn => .error exn
  | none => .ok s.bytesRequested

/-- The call of the operation that holds credit `i`, one step further. `convert` is
    `to_exception_ptr`, with the exceptions that replace it (lines 110–118). -/
def advance (convert : X → Exn) (s : Coordinator X Exn) (i : ℕ) :
    Phase X Exn → Act X → Option (Coordinator X Exn)
  | .held, .addTasks _ count =>
    if count = 0 then some s
    else if s.tasksRemaining = 0 then none
    else if s.tasksRemaining + count < 2 ^ 64 then
      some { s with
        tasksRemaining := s.tasksRemaining + count
        credits := s.credits ++ List.replicate count .held }
    else none
  | .held, .onComplete _ => some (s.set i .settling)
  | .held, .reportError _ error => some ({ s with reports := error :: s.reports }.set i (.reporting error))
  | .reporting error, .claim _ =>
    if s.continue_ then some ({ s with continue_ := false, winner := some error }.set i (.won error))
    else some (s.set i .settling)
  | .won error, .store _ => some ({ s with firstException := some (convert error) }.set i .settling)
  | .settling, .settle _ =>
    if s.tasksRemaining = 0 then none
    else some ({ s with tasksRemaining := s.tasksRemaining - 1 }.set i
      (if s.tasksRemaining = 1 then .resolving else .done))
  | .resolving, .resolve _ =>
    if s.ready then some ({ s with fulfilled := true }.set i (.fulfilling s.outcome))
    else some (s.set i .done)
  | .fulfilling outcome, .fulfil _ => some ({ s with promise := s.promise ++ [outcome] }.set i .done)
  | _, _ => none

/-- The credit whose call an action continues. -/
def Act.credit : Act X → Option ℕ
  | .addTasks i _ | .onComplete i | .reportError i _ | .claim i | .store i | .settle i
  | .resolve i | .fulfil i => some i
  | _ => none

/-- The call of `get_future` (lines 124–135). -/
def advanceFuture (s : Coordinator X Exn) : Getter Exn → Act X → Option (Coordinator X Exn)
  | .idle, .getFuture => some { s with futureTaken := true, getter := .resolving }
  | .resolving, .resolveFuture =>
    if s.ready then some { s with fulfilled := true, getter := .fulfilling s.outcome }
    else some { s with getter := .done }
  | .fulfilling outcome, .fulfilFuture =>
    some { s with promise := s.promise ++ [outcome], getter := .done }
  | _, _ => none

/-- One step of one call. -/
def step (convert : X → Exn) (s : Coordinator X Exn) (a : Act X) : Option (Coordinator X Exn) :=
  match a.credit with
  | some i => s.credits[i]?.bind fun phase => advance convert s i phase a
  | none => advanceFuture s s.getter a

/-! ## The invariant -/

/-- The credit still counts as a remaining task. -/
def Phase.unsettled : Phase X Exn → Bool
  | .held | .reporting _ | .won _ | .settling => true
  | _ => false

/-- The call is about to fulfil the promise. -/
def Phase.isFulfilling : Phase X Exn → Bool
  | .fulfilling _ => true
  | _ => false

/-- The call of `get_future` is about to fulfil the promise. -/
def Getter.isFulfilling : Getter Exn → Bool
  | .fulfilling _ => true
  | _ => false

/-- The outcome of the call that cleared `_continue`, or the byte count. -/
def verdict (convert : X → Exn) (bytes : ℕ) : Option X → Outcome Exn
  | some error => .error (convert error)
  | none => .ok bytes

/-- What every step keeps. -/
structure Inv (convert : X → Exn) (s : Coordinator X Exn) : Prop where
  remaining : s.tasksRemaining = s.credits.countP Phase.unsettled
  continue_ : s.continue_ = s.winner.isNone
  won : ∀ x, Phase.won x ∈ s.credits → s.winner = some x
  stored : ∀ x, s.winner = some x → s.firstException = some (convert x) ∨ Phase.won x ∈ s.credits
  exception : ∀ e, s.firstException = some e → ∃ x, s.winner = some x ∧ e = convert x
  reported : s.reports ≠ [] → s.winner.isSome = true ∨ ∃ x, Phase.reporting x ∈ s.credits
  reports : ∀ x, s.winner = some x ∨ Phase.reporting x ∈ s.credits → x ∈ s.reports
  taken : s.futureTaken = true ↔ s.getter ≠ .idle
  fulfilled : s.fulfilled = true → s.tasksRemaining = 0 ∧ s.futureTaken = true
  once : s.promise.length + s.credits.countP Phase.isFulfilling + s.getter.isFulfilling.toNat =
    s.fulfilled.toNat
  outcome : ∀ o, o ∈ s.promise ∨ Phase.fulfilling o ∈ s.credits ∨ s.getter = .fulfilling o →
    o = verdict convert s.bytesRequested s.winner
  live : s.tasksRemaining = 0 → s.futureTaken = true → s.fulfilled = false →
    Phase.resolving ∈ s.credits ∨ s.getter = .resolving

theorem inv_create (convert : X → Exn) (bytes n : ℕ) :
    Inv convert (create bytes n : Coordinator X Exn) where
  remaining := by
    have : (List.replicate n (Phase.held : Phase X Exn)).countP Phase.unsettled = n := by
      rw [List.countP_replicate]
      rfl
    exact this.symm
  continue_ := rfl
  won := fun x hx => by cases (List.mem_replicate.mp hx).2
  stored := by rintro x ⟨⟩
  exception := by rintro e ⟨⟩
  reported := fun h => absurd rfl h
  reports := by
    rintro x (⟨⟨⟩⟩ | hx)
    cases (List.mem_replicate.mp hx).2
  taken := by simp [create]
  fulfilled := by rintro ⟨⟩
  once := by
    have : (List.replicate n (Phase.held : Phase X Exn)).countP Phase.isFulfilling = 0 := by
      rw [List.countP_replicate]
      rfl
    simp [create, this, Getter.isFulfilling]
  outcome := by
    rintro o (ho | ho | ho)
    · cases ho
    · cases (List.mem_replicate.mp ho).2
    · cases ho
  live := by rintro - ⟨⟩

section Credits

variable {ps : List (Phase X Exn)} {i : ℕ} {p q r : Phase X Exn}

theorem countP_set_add (f : Phase X Exn → Bool) (h : ps[i]? = some p) :
    (ps.set i q).countP f + (f p).toNat = ps.countP f + (f q).toNat := by
  obtain ⟨hi, rfl⟩ := List.getElem?_eq_some_iff.mp h
  have hle : (f ps[i]).toNat ≤ ps.countP f := by
    cases hf : f ps[i] with
    | false => exact Nat.zero_le _
    | true => exact List.countP_pos_iff.mpr ⟨_, List.getElem_mem hi, hf⟩
  have hset := List.countP_set (p := f) (a := q) hi
  cases hf : f ps[i] with
  | false =>
    cases hq : f q with
    | false => simpa [hf, hq] using hset
    | true => simpa [hf, hq] using hset
  | true =>
    rw [hf] at hle
    cases hq : f q with
    | false =>
      simp only [hf, hq, if_true, Bool.false_eq_true, if_false, Bool.toNat_true] at hset hle ⊢
      simp only [Bool.toNat_false]
      omega
    | true =>
      simp only [hf, hq, if_true, Bool.toNat_true] at hset hle ⊢
      omega

theorem of_mem_set (h : r ∈ ps.set i q) : r = q ∨ r ∈ ps := (List.mem_or_eq_of_mem_set h).symm

theorem mem_of_mem_set (h : r ∈ ps.set i q) (hne : r ≠ q) : r ∈ ps := (of_mem_set h).resolve_left hne

theorem mem_set_self (h : ps[i]? = some p) : q ∈ ps.set i q :=
  List.mem_set (List.getElem?_eq_some_iff.mp h).1 _

theorem mem_set_of_ne (h : ps[i]? = some p) (hr : r ∈ ps) (hne : r ≠ p) : r ∈ ps.set i q := by
  obtain ⟨j, hj⟩ := List.mem_iff_getElem?.mp hr
  have hij : i ≠ j := by
    rintro rfl
    exact hne (Option.some.inj (hj.symm.trans h))
  exact List.mem_of_getElem? (by rw [List.getElem?_set_ne hij]; exact hj)

end Credits

section Steps

variable {convert : X → Exn} {s : Coordinator X Exn} {i : ℕ} {p : Phase X Exn}

/-- A credit that is not settled keeps the promise open. -/
theorem Inv.not_fulfilled (h : Inv convert s) (hi : s.credits[i]? = some p)
    (hp : p.unsettled = true) : 0 < s.tasksRemaining ∧ s.fulfilled = false := by
  have hpos : 0 < s.tasksRemaining := by
    rw [h.remaining]
    exact List.countP_pos_iff.mpr ⟨p, List.mem_of_getElem? hi, hp⟩
  refine ⟨hpos, ?_⟩
  by_contra hne
  have := (h.fulfilled (by simpa using hne)).1
  omega

/-- A call that goes on without touching the members: to `settle_one`, or to its end. -/
theorem Inv.set_plain (h : Inv convert s) (hi : s.credits[i]? = some p) {q : Phase X Exn}
    (hq : q = .settling ∨ q = .done) (hu : q.unsettled = p.unsettled)
    (hf : p.isFulfilling = false) (hwon : ∀ x, p ≠ .won x)
    (hreporting : s.winner.isSome = true ∨ ∀ x, p ≠ .reporting x)
    (hresolving : s.ready = false ∨ p ≠ .resolving) : Inv convert (s.set i q) := by
  have hu' := countP_set_add (q := q) Phase.unsettled hi
  have hf' := countP_set_add (q := q) Phase.isFulfilling hi
  have hqf : q.isFulfilling = false := by rcases hq with rfl | rfl <;> rfl
  rw [hu, add_left_inj] at hu'
  rw [hf, hqf, add_left_inj] at hf'
  refine ⟨h.remaining.trans hu'.symm, h.continue_, fun x hx => ?_, fun x hx => ?_, h.exception,
    fun hne => ?_, fun x hx => ?_, h.taken, h.fulfilled, ?_, fun o ho => ?_, fun h₁ h₂ h₃ => ?_⟩
  · rcases of_mem_set hx with rfl | hx
    · rcases hq with hq | hq <;> cases hq
    · exact h.won x hx
  · rcases h.stored x hx with hx | hx
    · exact .inl hx
    · exact .inr (mem_set_of_ne hi hx (Ne.symm (hwon x)))
  · rcases h.reported hne with hw | ⟨x, hx⟩
    · exact .inl hw
    · rcases hreporting with hw | hne
      · exact .inl hw
      · exact .inr ⟨x, mem_set_of_ne hi hx (Ne.symm (hne x))⟩
  · rcases hx with hx | hx
    · exact h.reports x (.inl hx)
    · rcases of_mem_set hx with rfl | hx
      · rcases hq with hq | hq <;> cases hq
      · exact h.reports x (.inr hx)
  · have := h.once
    rwa [← hf'] at this
  · rcases ho with ho | ho | ho
    · exact h.outcome o (.inl ho)
    · rcases of_mem_set ho with rfl | ho
      · rcases hq with hq | hq <;> cases hq
      · exact h.outcome o (.inr (.inl ho))
    · exact h.outcome o (.inr (.inr ho))
  · rcases h.live h₁ h₂ h₃ with hx | hx
    · rcases hresolving with hready | hne
      · have h₁' : s.tasksRemaining = 0 := h₁
        have h₂' : s.futureTaken = true := h₂
        have h₃' : s.fulfilled = false := h₃
        simp [Coordinator.ready, h₁', h₂', h₃'] at hready
      · exact .inl (mem_set_of_ne hi hx (Ne.symm hne))
    · exact .inr hx

theorem inv_addTasks (h : Inv convert s) (hi : s.credits[i]? = some .held) (count : ℕ) :
    Inv convert { s with
      tasksRemaining := s.tasksRemaining + count
      credits := s.credits ++ List.replicate count .held } := by
  obtain ⟨hpos, hnot⟩ := h.not_fulfilled hi rfl
  have hold : ∀ r, r ≠ .held → r ∈ s.credits ++ List.replicate count .held → r ∈ s.credits := by
    intro r hr hmem
    rcases List.mem_append.mp hmem with hmem | hmem
    · exact hmem
    · exact absurd (List.mem_replicate.mp hmem).2 hr
  refine ⟨?_, h.continue_, fun x hx => h.won x (hold _ (by simp) hx), fun x hx => ?_, h.exception,
    fun hne => ?_, fun x hx => ?_, h.taken, fun hful => ?_, ?_, fun o ho => ?_, fun h₁ => ?_⟩
  · have hnew : (List.replicate count (Phase.held : Phase X Exn)).countP Phase.unsettled = count := by
      rw [List.countP_replicate]
      rfl
    change s.tasksRemaining + count = (s.credits ++ List.replicate count Phase.held).countP Phase.unsettled
    rw [List.countP_append, hnew, h.remaining]
  · exact (h.stored x hx).imp id (List.mem_append_left _)
  · exact (h.reported hne).imp id fun ⟨x, hx⟩ => ⟨x, List.mem_append_left _ hx⟩
  · exact h.reports x (hx.imp id (hold _ (by simp)))
  · rw [show s.fulfilled = true from hful] at hnot
    cases hnot
  · have hnew : (List.replicate count (Phase.held : Phase X Exn)).countP Phase.isFulfilling = 0 := by
      rw [List.countP_replicate]
      rfl
    have := h.once
    change s.promise.length + (s.credits ++ List.replicate count Phase.held).countP Phase.isFulfilling +
      s.getter.isFulfilling.toNat = s.fulfilled.toNat
    rwa [List.countP_append, hnew, Nat.add_zero]
  · rcases ho with ho | ho | ho
    · exact h.outcome o (.inl ho)
    · exact h.outcome o (.inr (.inl (hold _ (by simp) ho)))
    · exact h.outcome o (.inr (.inr ho))
  · have h₁' : s.tasksRemaining + count = 0 := h₁
    omega

theorem inv_reportError (h : Inv convert s) (hi : s.credits[i]? = some .held) (error : X) :
    Inv convert ({ s with reports := error :: s.reports }.set i (.reporting error)) := by
  have hu := countP_set_add (q := .reporting error) Phase.unsettled hi
  have hf := countP_set_add (q := .reporting error) Phase.isFulfilling hi
  obtain ⟨hpos, -⟩ := h.not_fulfilled hi rfl
  refine ⟨h.remaining.trans (Nat.add_right_cancel hu).symm, h.continue_, fun x hx => ?_,
    fun x hx => ?_, h.exception, fun _ => .inr ⟨error, mem_set_self hi⟩, fun x hx => ?_, h.taken,
    h.fulfilled, ?_, fun o ho => ?_, fun h₁ => absurd h₁ hpos.ne'⟩
  · exact h.won x (mem_of_mem_set hx (by simp))
  · exact (h.stored x hx).imp id fun hx => mem_set_of_ne hi hx (by simp)
  · rcases hx with hx | hx
    · exact List.mem_cons_of_mem _ (h.reports x (.inl hx))
    · rcases of_mem_set hx with hx | hx
      · rw [(Phase.reporting.inj hx)]
        exact List.mem_cons_self
      · exact List.mem_cons_of_mem _ (h.reports x (.inr hx))
  · have := h.once
    rwa [← Nat.add_right_cancel hf] at this
  · rcases ho with ho | ho | ho
    · exact h.outcome o (.inl ho)
    · exact h.outcome o (.inr (.inl (mem_of_mem_set ho (by simp))))
    · exact h.outcome o (.inr (.inr ho))

/-- The call that clears `_continue`. -/
theorem inv_claim (h : Inv convert s) {error : X} (hi : s.credits[i]? = some (.reporting error))
    (hcont : s.continue_ = true) :
    Inv convert ({ s with continue_ := false, winner := some error }.set i (.won error)) := by
  have hu := countP_set_add (q := .won error) Phase.unsettled hi
  have hf := countP_set_add (q := .won error) Phase.isFulfilling hi
  obtain ⟨hpos, hnot⟩ := h.not_fulfilled hi rfl
  have hnone : s.winner = none := by
    rw [← Option.isNone_iff_eq_none, ← h.continue_, hcont]
  have honce := h.once
  rw [hnot] at honce
  refine ⟨h.remaining.trans (Nat.add_right_cancel hu).symm, rfl, fun x hx => ?_, fun x hx => ?_,
    fun e he => ?_, fun _ => .inl rfl, fun x hx => ?_, h.taken, h.fulfilled, ?_, fun o ho => ?_,
    fun h₁ => absurd h₁ hpos.ne'⟩
  · rcases of_mem_set hx with hx | hx
    · rw [Phase.won.inj hx]
      rfl
    · have := h.won x hx
      rw [hnone] at this
      cases this
  · obtain rfl := Option.some.inj hx
    exact .inr (mem_set_self hi)
  · obtain ⟨x, hx, -⟩ := h.exception e he
    rw [hnone] at hx
    cases hx
  · rcases hx with hx | hx
    · obtain rfl := Option.some.inj hx
      exact h.reports _ (.inr (List.mem_of_getElem? hi))
    · exact h.reports x (.inr (mem_of_mem_set hx (by simp)))
  · have := h.once
    rwa [← Nat.add_right_cancel hf] at this
  · -- nothing was given to the promise yet
    simp only [Bool.toNat_false, Nat.add_eq_zero_iff, List.length_eq_zero_iff,
      List.countP_eq_zero] at honce
    obtain ⟨⟨hpromise, hcredits⟩, hgetter⟩ := honce
    rcases ho with ho | ho | ho
    · rw [show s.promise = [] from hpromise] at ho
      cases ho
    · exact absurd rfl (hcredits _ (mem_of_mem_set ho (by simp)))
    · rw [show s.getter = .fulfilling o from ho] at hgetter
      cases hgetter

/-- The exception is stored. -/
theorem inv_store (h : Inv convert s) {error : X} (hi : s.credits[i]? = some (.won error)) :
    Inv convert ({ s with firstException := some (convert error) }.set i .settling) := by
  have hu := countP_set_add (q := .settling) Phase.unsettled hi
  have hf := countP_set_add (q := .settling) Phase.isFulfilling hi
  obtain ⟨hpos, -⟩ := h.not_fulfilled hi rfl
  have hwinner := h.won error (List.mem_of_getElem? hi)
  refine ⟨h.remaining.trans (Nat.add_right_cancel hu).symm, h.continue_, fun x hx => ?_,
    fun x hx => ?_, fun e he => ?_, fun _ => .inl ?_, fun x hx => ?_, h.taken, h.fulfilled, ?_,
    fun o ho => ?_, fun h₁ => absurd h₁ hpos.ne'⟩
  · exact h.won x (mem_of_mem_set hx (by simp))
  · have hx' : s.winner = some x := hx
    rw [hwinner] at hx'
    rw [Option.some.inj hx']
    exact .inl rfl
  · exact ⟨error, hwinner, (Option.some.inj he).symm⟩
  · change s.winner.isSome = true
    rw [hwinner]
    rfl
  · rcases hx with hx | hx
    · exact h.reports x (.inl hx)
    · exact h.reports x (.inr (mem_of_mem_set hx (by simp)))
  · have := h.once
    rwa [← Nat.add_right_cancel hf] at this
  · rcases ho with ho | ho | ho
    · exact h.outcome o (.inl ho)
    · exact h.outcome o (.inr (.inl (mem_of_mem_set ho (by simp))))
    · exact h.outcome o (.inr (.inr ho))

/-- A credit is settled. -/
theorem inv_settle (h : Inv convert s) (hi : s.credits[i]? = some .settling) :
    Inv convert ({ s with tasksRemaining := s.tasksRemaining - 1 }.set i
      (if s.tasksRemaining = 1 then .resolving else .done)) := by
  obtain ⟨hpos, hnot⟩ := h.not_fulfilled hi rfl
  generalize hq : (if s.tasksRemaining = 1 then Phase.resolving else .done : Phase X Exn) = q
  have hplain : q.unsettled = false ∧ q.isFulfilling = false ∧ (∀ x, q ≠ .won x) ∧
      (∀ x, q ≠ .reporting x) := by
    rw [← hq]
    split_ifs <;> simp [Phase.unsettled, Phase.isFulfilling]
  have hu := countP_set_add (q := q) Phase.unsettled hi
  have hf := countP_set_add (q := q) Phase.isFulfilling hi
  rw [hplain.1] at hu
  rw [hplain.2.1] at hf
  refine ⟨?_, h.continue_, fun x hx => ?_, fun x hx => ?_, h.exception, fun hne => ?_,
    fun x hx => ?_, h.taken, fun hful => ?_, ?_, fun o ho => ?_, fun h₁ h₂ h₃ => .inl ?_⟩
  · have hrem := h.remaining
    change s.tasksRemaining - 1 = (s.credits.set i q).countP Phase.unsettled
    change _ + 1 = _ + 0 at hu
    omega
  · rcases of_mem_set hx with hx | hx
    · exact absurd hx.symm (hplain.2.2.1 x)
    · exact h.won x hx
  · exact (h.stored x hx).imp id fun hx => mem_set_of_ne hi hx (by simp)
  · exact (h.reported hne).imp id fun ⟨x, hx⟩ => ⟨x, mem_set_of_ne hi hx (by simp)⟩
  · rcases hx with hx | hx
    · exact h.reports x (.inl hx)
    · rcases of_mem_set hx with hx | hx
      · exact absurd hx.symm (hplain.2.2.2 x)
      · exact h.reports x (.inr hx)
  · rw [show s.fulfilled = true from hful] at hnot
    cases hnot
  · have := h.once
    rwa [← Nat.add_right_cancel hf] at this
  · rcases ho with ho | ho | ho
    · exact h.outcome o (.inl ho)
    · rcases of_mem_set ho with ho | ho
      · have := hplain.2.1
        rw [← ho] at this
        cases this
      · exact h.outcome o (.inr (.inl ho))
    · exact h.outcome o (.inr (.inr ho))
  · have hlast : s.tasksRemaining = 1 := by
      have h₁' : s.tasksRemaining - 1 = 0 := h₁
      omega
    rw [if_pos hlast] at hq
    subst hq
    exact mem_set_self hi

theorem ready_iff : s.ready = true ↔
    s.tasksRemaining = 0 ∧ s.futureTaken = true ∧ s.fulfilled = false := by
  simp [Coordinator.ready, and_assoc]

/-- Once every credit is settled, the stored exception is that of the winner. -/
theorem Inv.outcome_eq (h : Inv convert s) (hzero : s.tasksRemaining = 0) :
    s.outcome = verdict convert s.bytesRequested s.winner := by
  have hwon : ∀ x, Phase.won x ∉ s.credits := by
    intro x hx
    rw [h.remaining, List.countP_eq_zero] at hzero
    exact hzero _ hx rfl
  unfold Coordinator.outcome
  cases hwinner : s.winner with
  | none =>
    cases hexn : s.firstException with
    | none => rfl
    | some e =>
      obtain ⟨x, hx, -⟩ := h.exception e hexn
      rw [hwinner] at hx
      cases hx
  | some x =>
    rw [(h.stored x hwinner).resolve_right (hwon x)]
    rfl

theorem inv_resolve (h : Inv convert s) (hi : s.credits[i]? = some .resolving)
    (hready : s.ready = true) :
    Inv convert ({ s with fulfilled := true }.set i (.fulfilling s.outcome)) := by
  obtain ⟨hzero, htaken, hnot⟩ := ready_iff.mp hready
  have hu := countP_set_add (q := .fulfilling s.outcome) Phase.unsettled hi
  have hf := countP_set_add (q := .fulfilling s.outcome) Phase.isFulfilling hi
  refine ⟨h.remaining.trans (Nat.add_right_cancel hu).symm, h.continue_, fun x hx => ?_,
    fun x hx => ?_, h.exception, fun hne => ?_, fun x hx => ?_, h.taken, fun _ => ⟨hzero, htaken⟩, ?_,
    fun o ho => ?_, fun _ _ h₃ => by cases h₃⟩
  · exact h.won x (mem_of_mem_set hx (by simp))
  · exact (h.stored x hx).imp id fun hx => mem_set_of_ne hi hx (by simp)
  · exact (h.reported hne).imp id fun ⟨x, hx⟩ => ⟨x, mem_set_of_ne hi hx (by simp)⟩
  · rcases hx with hx | hx
    · exact h.reports x (.inl hx)
    · exact h.reports x (.inr (mem_of_mem_set hx (by simp)))
  · have honce := h.once
    rw [hnot] at honce
    change _ + 0 = _ + 1 at hf
    change s.promise.length + (s.credits.set i (.fulfilling s.outcome)).countP Phase.isFulfilling +
      s.getter.isFulfilling.toNat = 1
    change _ = 0 at honce
    omega
  · rcases ho with ho | ho | ho
    · exact h.outcome o (.inl ho)
    · rcases of_mem_set ho with ho | ho
      · rw [Phase.fulfilling.inj ho]
        exact h.outcome_eq hzero
      · exact h.outcome o (.inr (.inl ho))
    · exact h.outcome o (.inr (.inr ho))

/-- The promise is set. -/
theorem inv_fulfil (h : Inv convert s) {o : Outcome Exn} (hi : s.credits[i]? = some (.fulfilling o)) :
    Inv convert ({ s with promise := s.promise ++ [o] }.set i .done) := by
  have hu := countP_set_add (q := .done) Phase.unsettled hi
  have hf := countP_set_add (q := .done) Phase.isFulfilling hi
  refine ⟨h.remaining.trans (Nat.add_right_cancel hu).symm, h.continue_, fun x hx => ?_,
    fun x hx => ?_, h.exception, fun hne => ?_, fun x hx => ?_, h.taken, h.fulfilled, ?_,
    fun o' ho => ?_, fun h₁ h₂ h₃ => ?_⟩
  · exact h.won x (mem_of_mem_set hx (by simp))
  · exact (h.stored x hx).imp id fun hx => mem_set_of_ne hi hx (by simp)
  · exact (h.reported hne).imp id fun ⟨x, hx⟩ => ⟨x, mem_set_of_ne hi hx (by simp)⟩
  · rcases hx with hx | hx
    · exact h.reports x (.inl hx)
    · exact h.reports x (.inr (mem_of_mem_set hx (by simp)))
  · have honce := h.once
    change _ + 1 = _ + 0 at hf
    change (s.promise ++ [o]).length + (s.credits.set i .done).countP Phase.isFulfilling +
      s.getter.isFulfilling.toNat = s.fulfilled.toNat
    rw [List.length_append, List.length_singleton]
    omega
  · have hmine := h.outcome o (.inr (.inl (List.mem_of_getElem? hi)))
    rcases ho with ho | ho | ho
    · rcases List.mem_append.mp ho with ho | ho
      · exact h.outcome o' (.inl ho)
      · rw [List.mem_singleton.mp ho]
        exact hmine
    · exact h.outcome o' (.inr (.inl (mem_of_mem_set ho (by simp))))
    · exact h.outcome o' (.inr (.inr ho))
  · exact (h.live h₁ h₂ h₃).imp (fun hx => mem_set_of_ne hi hx (by simp)) id

variable {s' : Coordinator X Exn}

theorem inv_advance (h : Inv convert s) (hi : s.credits[i]? = some p) {a : Act X}
    (hs : advance convert s i p a = some s') : Inv convert s' := by
  unfold advance at hs
  split at hs
  · split_ifs at hs
    · obtain rfl := Option.some.inj hs
      exact h
    · obtain rfl := Option.some.inj hs
      exact inv_addTasks h hi _
  · obtain rfl := Option.some.inj hs
    exact h.set_plain hi (.inl rfl) rfl rfl (by simp) (.inr (by simp)) (.inr (by simp))
  · obtain rfl := Option.some.inj hs
    exact inv_reportError h hi _
  · split_ifs at hs with hcont
    · obtain rfl := Option.some.inj hs
      exact inv_claim h hi hcont
    · obtain rfl := Option.some.inj hs
      have hwinner : s.winner.isSome = true := by
        have := h.continue_
        rw [Bool.eq_false_iff.mpr hcont] at this
        simpa using this.symm
      exact h.set_plain hi (.inl rfl) rfl rfl (by simp) (.inl hwinner) (.inr (by simp))
  · obtain rfl := Option.some.inj hs
    exact inv_store h hi
  · by_cases hzero : s.tasksRemaining = 0
    · rw [if_pos hzero] at hs
      cases hs
    · rw [if_neg hzero] at hs
      obtain rfl := Option.some.inj hs
      exact inv_settle h hi
  · split_ifs at hs with hready
    · obtain rfl := Option.some.inj hs
      exact inv_resolve h hi hready
    · obtain rfl := Option.some.inj hs
      exact h.set_plain hi (.inr rfl) rfl rfl (by simp) (.inr (by simp))
        (.inl (Bool.eq_false_iff.mpr hready))
  · obtain rfl := Option.some.inj hs
    exact inv_fulfil h hi
  · cases hs

theorem inv_advanceFuture (h : Inv convert s) {a : Act X}
    (hs : advanceFuture s s.getter a = some s') : Inv convert s' := by
  have honce := h.once
  cases hg : s.getter with
  | idle =>
    rw [hg] at hs honce
    cases a with
    | getFuture =>
      obtain rfl := Option.some.inj hs
      refine ⟨h.remaining, h.continue_, h.won, h.stored, h.exception, h.reported, h.reports, by simp,
        fun hful => ⟨(h.fulfilled hful).1, rfl⟩, honce, fun o ho => ?_, fun _ _ _ => .inr rfl⟩
      rcases ho with ho | ho | ho
      · exact h.outcome o (.inl ho)
      · exact h.outcome o (.inr (.inl ho))
      · cases ho
    | _ => cases hs
  | resolving =>
    rw [hg] at hs honce
    have htaken : s.futureTaken = true := h.taken.mpr (by rw [hg]; simp)
    cases a with
    | resolveFuture =>
      simp only [advanceFuture] at hs
      split_ifs at hs with hready
      · obtain ⟨hzero, -, hnot⟩ := ready_iff.mp hready
        obtain rfl := Option.some.inj hs
        rw [hnot] at honce
        refine ⟨h.remaining, h.continue_, h.won, h.stored, h.exception, h.reported, h.reports,
          ⟨fun _ => by simp, fun _ => htaken⟩, fun _ => ⟨hzero, htaken⟩, ?_, fun o ho => ?_,
          fun _ _ h₃ => by cases h₃⟩
        · change s.promise.length + s.credits.countP Phase.isFulfilling + 1 = 1
          change s.promise.length + s.credits.countP Phase.isFulfilling + 0 = 0 at honce
          omega
        · rcases ho with ho | ho | ho
          · exact h.outcome o (.inl ho)
          · exact h.outcome o (.inr (.inl ho))
          · rw [← Getter.fulfilling.inj ho]
            exact h.outcome_eq hzero
      · obtain rfl := Option.some.inj hs
        refine ⟨h.remaining, h.continue_, h.won, h.stored, h.exception, h.reported, h.reports,
          ⟨fun _ => by simp, fun _ => htaken⟩, h.fulfilled, honce, fun o ho => ?_,
          fun h₁ h₂ h₃ => absurd (ready_iff.mpr ⟨h₁, h₂, h₃⟩) hready⟩
        rcases ho with ho | ho | ho
        · exact h.outcome o (.inl ho)
        · exact h.outcome o (.inr (.inl ho))
        · cases ho
    | _ => cases hs
  | fulfilling o =>
    rw [hg] at hs honce
    have htaken : s.futureTaken = true := h.taken.mpr (by rw [hg]; simp)
    cases a with
    | fulfilFuture =>
      obtain rfl := Option.some.inj hs
      have hmine := h.outcome o (.inr (.inr hg))
      refine ⟨h.remaining, h.continue_, h.won, h.stored, h.exception, h.reported, h.reports,
        ⟨fun _ => by simp, fun _ => htaken⟩, h.fulfilled, ?_, fun o' ho => ?_, fun h₁ h₂ h₃ => ?_⟩
      · change s.promise.length + s.credits.countP Phase.isFulfilling + 1 = _ at honce
        change (s.promise ++ [o]).length + s.credits.countP Phase.isFulfilling + 0 = s.fulfilled.toNat
        rw [List.length_append, List.length_singleton]
        omega
      · rcases ho with ho | ho | ho
        · rcases List.mem_append.mp ho with ho | ho
          · exact h.outcome o' (.inl ho)
          · rw [List.mem_singleton.mp ho]
            exact hmine
        · exact h.outcome o' (.inr (.inl ho))
        · cases ho
      · rcases h.live h₁ h₂ h₃ with hx | hx
        · exact .inl hx
        · rw [hg] at hx
          cases hx
    | _ => cases hs
  | done =>
    rw [hg] at hs
    cases a <;> cases hs

theorem inv_step {a : Act X} (h : Inv convert s)
    (hs : step convert s a = some s') : Inv convert s' := by
  unfold step at hs
  split at hs
  · obtain ⟨p, hi, hs⟩ := Option.bind_eq_some_iff.mp hs
    exact inv_advance h hi hs
  · exact inv_advanceFuture h hs

end Steps

/-! ## The promise -/

theorem step_bytesRequested {convert : X → Exn} {s s' : Coordinator X Exn} {a : Act X}
    (hs : step convert s a = some s') : s'.bytesRequested = s.bytesRequested := by
  unfold step at hs
  split at hs
  · obtain ⟨p, -, hs⟩ := Option.bind_eq_some_iff.mp hs
    unfold advance at hs
    repeat' split at hs
    all_goals try cases hs
    all_goals rfl
  · unfold advanceFuture at hs
    repeat' split at hs
    all_goals try cases hs
    all_goals rfl

/-- **The promise is fulfilled once**, after every credit is settled and the future was
    taken, with the exception of the call that cleared `_continue` if any error was reported
    and the byte count otherwise. When all calls have returned it has been fulfilled. -/
theorem promise_fulfilled_once (convert : X → Exn) (bytes n : ℕ) {s : Coordinator X Exn}
    {acts : List (Act X)} (h : run (step convert) (create bytes n) acts = some s) :
    s.promise.length ≤ 1 ∧
    (∀ o ∈ s.promise, (∀ p ∈ s.credits, p.unsettled = false) ∧ s.futureTaken = true ∧
      ((s.reports = [] ∧ o = .ok bytes) ∨
        ∃ error ∈ s.reports, s.winner = some error ∧ o = .error (convert error))) ∧
    ((∀ p ∈ s.credits, p = .done) → s.getter = .done → s.promise.length = 1) := by
  obtain ⟨hinv, hbytes⟩ : Inv convert s ∧ s.bytesRequested = bytes := by
    refine run_invariant (I := fun s => Inv convert s ∧ s.bytesRequested = bytes) ?_
      ⟨inv_create convert bytes n, rfl⟩ h
    rintro s a s' ⟨hinv, hbytes⟩ hs
    exact ⟨inv_step hinv hs, (step_bytesRequested hs).trans hbytes⟩
  have honce := hinv.once
  refine ⟨?_, fun o ho => ?_, fun hcredits hgetter => ?_⟩
  · have := s.fulfilled.toNat_le
    omega
  · have hfulfilled : s.fulfilled = true := by
      have := List.length_pos_of_mem ho
      cases hf : s.fulfilled with
      | true => rfl
      | false =>
        rw [hf] at honce
        change _ = 0 at honce
        omega
    obtain ⟨hzero, htaken⟩ := hinv.fulfilled hfulfilled
    have hsettled : ∀ p ∈ s.credits, p.unsettled = false := by
      intro p hp
      rw [hinv.remaining, List.countP_eq_zero] at hzero
      exact Bool.eq_false_iff.mpr (hzero p hp)
    have houtcome := hinv.outcome o (.inl ho)
    refine ⟨hsettled, htaken, ?_⟩
    cases hwinner : s.winner with
    | none =>
      refine .inl ⟨?_, by rw [houtcome, hwinner, hbytes]; rfl⟩
      by_contra hne
      rcases hinv.reported hne with hw | ⟨x, hx⟩
      · rw [hwinner] at hw
        cases hw
      · have := hsettled _ hx
        cases this
    | some error =>
      exact .inr ⟨error, hinv.reports error (.inl hwinner), rfl, by rw [houtcome, hwinner]; rfl⟩
  · have hzero : s.tasksRemaining = 0 := by
      rw [hinv.remaining, List.countP_eq_zero]
      intro p hp
      rw [hcredits p hp]
      simp [Phase.unsettled]
    have hnone : s.credits.countP Phase.isFulfilling = 0 := by
      rw [List.countP_eq_zero]
      intro p hp
      rw [hcredits p hp]
      simp [Phase.isFulfilling]
    have htaken : s.futureTaken = true := hinv.taken.mpr (by rw [hgetter]; simp)
    have hfulfilled : s.fulfilled = true := by
      by_contra hnot
      rcases hinv.live hzero htaken (Bool.eq_false_iff.mpr hnot) with hx | hx
      · cases hcredits _ hx
      · rw [hgetter] at hx
        cases hx
    rw [hnone, hgetter, hfulfilled] at honce
    exact honce

/-- One slice is expanded into two operations; one fails and the other completes. -/
def expandedActs : List (Act String) :=
  [.addTasks 0 1, .getFuture, .resolveFuture, .reportError 0 "EIO", .onComplete 1, .claim 0,
    .settle 1, .store 0, .settle 0, .resolve 0, .fulfil 0]

theorem promise_fulfilled_expanded :
    ∃ s, run (step (id : String → String)) (create 4096 1) expandedActs = some s ∧
      s.promise = [.error "EIO"] ∧ s.promise.length ≤ 1 := by
  have hrun : ∃ s, run (step (id : String → String)) (create 4096 1) expandedActs = some s ∧
      s.promise = [.error "EIO"] := ⟨_, rfl, rfl⟩
  obtain ⟨s, hrun, hpromise⟩ := hrun
  exact ⟨s, hrun, hpromise, (promise_fulfilled_once id 4096 1 hrun).1⟩

end Sirius.Io.GroupedCoordinator
