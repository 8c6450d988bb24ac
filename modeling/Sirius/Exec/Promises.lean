import Sirius.Exec.SemiFuture

/-!
# Promises and what they owe

Model of `promise` (src/exec/semi_future.hpp:839-926) with the cores that promises own, and of what
happens to the callbacks on the futures of these cores (lines 278–310, 369–378, 1003–1041). A
callback is any code: while it runs, any operations may be done, and then it returns or throws. A
promise may be a variable, or stand in a callback or in a task on an executor, as the one of
`then_try` does; when an `enqueue` throws, its task is destroyed and the callback throws. What a
`try_t` holds is of type `τ`.

* `State`, `step`: the system.
* `Core.Served`: a core has a result, or has given one to its consumer.
* `Inv`: the invariant, and what keeps its parts when a core or a promise changes.
-/

namespace Sirius.Exec.Promises

open Sirius.Exec.SemiFuture (CoreState)

/-- `core`. The last four fields record what has happened to it: whether its future was retrieved
    and is still there, the first result that a promise was given for it, and the results that its
    consumer has got. -/
structure Core (τ : Type*) where
  state : CoreState
  result : Option τ
  callback : Option ℕ
  retrieved : Bool
  futureValid : Bool
  wasSet : Option τ
  delivered : List τ

/-- `promise`. -/
structure Promise where
  core : Option ℕ
  retrieved : Bool
  deriving DecidableEq, Repr

/-- Who runs a callback: a `set_value` and the like, a destructor, or a `set_callback` that came
    second. -/
inductive Caller where
  | set (promise : ℕ)
  | destructor
  | consumer
  deriving DecidableEq, Repr

/-- A callback that is running in `run_and_complete`. -/
structure Frame where
  core : ℕ
  caller : Caller
  deriving DecidableEq, Repr

structure State (τ : Type*) where
  cores : ℕ → Core τ
  numCores : ℕ
  promises : ℕ → Option Promise
  numPromises : ℕ
  running : List Frame
  numCallbacks : ℕ
  /-- The callbacks that were called, in order. -/
  called : List ℕ
  /-- An emptied callback was called, which is undefined. -/
  undefinedCall : Bool
  terminated : Bool

inductive Action (τ : Type*) where
  | newPromise
  | moveConstruct (src : ℕ)
  | moveAssign (dst src : ℕ)
  | getSemiFuture (p : ℕ)
  | setTry (p : ℕ) (t : τ)
  | destroy (p : ℕ)
  | installCallback (c : ℕ)
  | getTry (c : ℕ)
  | callbackReturns (i : ℕ)
  | callbackThrows (i : ℕ)

variable {τ : Type*}

namespace Core

/-- A new core. -/
def fresh : Core τ :=
  { state := .empty, result := none, callback := none, retrieved := false, futureValid := false,
    wasSet := none, delivered := [] }

/-- `core::ready`. -/
def ready (k : Core τ) : Bool := k.state = .hasResult || k.state = .done

/-- The callback has moved out, and the result with it. -/
def consumed (k : Core τ) : Core τ :=
  { k with callback := none, result := none, delivered := k.delivered ++ k.result.toList }

end Core

namespace State

/-- Before any operation. -/
def start : State τ :=
  { cores := fun _ => .fresh, numCores := 0, promises := fun _ => none, numPromises := 0,
    running := [], numCallbacks := 0, called := [], undefinedCall := false, terminated := false }

def setCore (s : State τ) (c : ℕ) (k : Core τ) : State τ :=
  { s with cores := Function.update s.cores c k }

def setPromise (s : State τ) (p : ℕ) (q : Option Promise) : State τ :=
  { s with promises := Function.update s.promises p q }

/-- The call in `run_and_complete` (lines 369–378). -/
def runAndComplete (s : State τ) (c : ℕ) (caller : Caller) : State τ :=
  match (s.cores c).callback with
  | none => { s with undefinedCall := true }
  | some cb =>
    { s.setCore c (s.cores c).consumed with
      called := s.called ++ [cb]
      running := s.running ++ [{ core := c, caller := caller }] }

/-- `core::set_try` (lines 278–294) on a core that has been set or is being abandoned. -/
def coreSetTry (s : State τ) (c : ℕ) (t : τ) (wasSet : Option τ) (caller : Caller) : State τ :=
  let k := { s.cores c with result := some t, wasSet := wasSet }
  if k.state = .empty then s.setCore c { k with state := .hasResult }
  else (s.setCore c k).runAndComplete c caller

/-- `core::set_callback` (lines 297–310), and the end of the future when it comes first. -/
def coreSetCallback (s : State τ) (c : ℕ) : State τ :=
  let k := { s.cores c with callback := some s.numCallbacks }
  let s := { s with numCallbacks := s.numCallbacks + 1 }
  if k.state = .empty then s.setCore c { k with state := .hasCallback, futureValid := false }
  else (s.setCore c k).runAndComplete c .consumer

end State

/-- One operation. It is `none` where it cannot be done: the object does not exist, a result is not
    there yet, or a promise would be destroyed in its own call. An operation that throws leaves the
    state as it is. -/
def step (broken : τ) (s : State τ) (a : Action τ) : Option (State τ) :=
  if s.undefinedCall || s.terminated then none
  else
    match a with
    | .newPromise =>
      some { s.setPromise s.numPromises (some { core := some s.numCores, retrieved := false }) with
        numPromises := s.numPromises + 1
        numCores := s.numCores + 1 }
    | .moveConstruct src =>
      (s.promises src).map fun q =>
        { (s.setPromise src (some { q with core := none })).setPromise s.numPromises (some q) with
          numPromises := s.numPromises + 1 }
    | .moveAssign dst src =>
      (s.promises dst).bind fun _ =>
        (s.promises src).map fun q =>
          if dst = src then s
          else (s.setPromise src (some { q with core := none })).setPromise dst (some q)
    | .getSemiFuture p =>
      (s.promises p).map fun q =>
        if q.retrieved then s
        else
          match q.core with
          | none => s
          | some c =>
            (s.setCore c { s.cores c with retrieved := true, futureValid := true }).setPromise p
              (some { q with retrieved := true })
    | .setTry p t =>
      (s.promises p).map fun q =>
        match q.core with
        | none => s
        | some c =>
          let s' := s.coreSetTry c t ((s.cores c).wasSet <|> some t) (.set p)
          if (s.cores c).state = .empty then s'.setPromise p (some { q with core := none }) else s'
    | .destroy p =>
      if s.running.any fun f => f.caller = .set p then none
      else
        (s.promises p).map fun q =>
          let s' := s.setPromise p none
          match q.core with
          | none => s'
          | some c =>
            if (s.cores c).ready then s'
            else s'.coreSetTry c broken (s.cores c).wasSet .destructor
    | .installCallback c => if (s.cores c).futureValid then some (s.coreSetCallback c) else none
    | .getTry c =>
      if (s.cores c).futureValid && (s.cores c).ready then
        some (s.setCore c { (s.cores c).consumed with futureValid := false })
      else none
    | .callbackReturns i =>
      (s.running[i]?).map fun f =>
        let s' := { s.setCore f.core { s.cores f.core with state := .done } with
          running := s.running.eraseIdx i }
        match f.caller with
        | .set p =>
          s'.setPromise p ((s.promises p).map fun q => { q with core := none })
        | .destructor => s'
        | .consumer =>
          s'.setCore f.core { s'.cores f.core with futureValid := false }
    | .callbackThrows i =>
      (s.running[i]?).map fun f =>
        { s with
          running := s.running.eraseIdx i
          terminated := decide (f.caller = .destructor) }

/-! ## What a core owes -/

namespace Core

/-- The consumer of the core is waiting: no result has come, and a callback that is there has not
    been called. -/
def Unsatisfied (k : Core τ) : Prop :=
  k.state = .empty ∨ k.state = .hasCallback ∧ k.callback ≠ none

instance (k : Core τ) : Decidable k.Unsatisfied :=
  inferInstanceAs (Decidable (_ ∨ _ ∧ k.callback ≠ none))

/-- The result that the core owes: the one that was set, or a broken promise. -/
def Owes (broken : τ) (k : Core τ) (t : τ) : Prop :=
  k.wasSet = some t ∨ k.wasSet = none ∧ t = broken

/-- The core has given its result to the consumer. -/
def Gave (broken : τ) (k : Core τ) : Prop := ∃ t ∈ k.delivered, k.Owes broken t

/-- The core holds its result, or has given it to the consumer. -/
def Served (broken : τ) (k : Core τ) : Prop :=
  (∃ t, k.state = .hasResult ∧ k.result = some t ∧ k.Owes broken t) ∨ k.Gave broken

/-- What holds of a core by itself. -/
structure Inv (broken : τ) (k : Core τ) : Prop where
  pending : k.Unsatisfied → k.result = none ∧ k.delivered = [] ∧ k.wasSet = none
  served : ¬k.Unsatisfied → k.Served broken
  quiet : k.retrieved = false →
    (k.state = .empty ∨ k.state = .hasResult) ∧ k.callback = none ∧ k.futureValid = false
  valid : k.futureValid = true → k.state = .empty ∨ k.state = .hasResult

variable {broken : τ} {k : Core τ}

theorem Gave.not_unsatisfied (h : k.Gave broken) (hk : k.Inv broken) : ¬k.Unsatisfied := by
  intro hun
  obtain ⟨t, ht, -⟩ := h
  rw [(hk.pending hun).2.1] at ht
  cases ht

theorem Inv.fresh : (fresh : Core τ).Inv broken where
  pending _ := ⟨rfl, rfl, rfl⟩
  served h := absurd (.inl rfl) h
  quiet _ := ⟨.inl rfl, rfl, rfl⟩
  valid h := nomatch h

/-- The future is retrieved. -/
theorem Inv.retrieve (h : k.Inv broken) (hk : k.retrieved = false) :
    Inv broken { k with retrieved := true, futureValid := true } where
  pending := h.pending
  served := h.served
  quiet hr := nomatch hr
  valid _ := (h.quiet hk).1

/-- The deposit of a result that the core owes, while nothing waits for it. -/
theorem Inv.deposit (h : k.Inv broken) {t : τ} {w : Option τ}
    (hw : w = some t ∨ w = none ∧ t = broken) :
    Inv broken { k with result := some t, wasSet := w, state := .hasResult } where
  pending hun := by
    rcases hun with hun | ⟨hun, -⟩ <;> cases hun
  served _ := .inl ⟨t, rfl, rfl, hw⟩
  quiet hr := ⟨.inr rfl, (h.quiet hr).2⟩
  valid _ := .inr rfl

theorem not_unsatisfied_of_callback_none (hstate : k.state ≠ .empty) (hcb : k.callback = none) :
    ¬k.Unsatisfied := by
  rintro (h | ⟨-, h⟩)
  · exact hstate h
  · exact h hcb

theorem not_unsatisfied_of_ready (h : k.ready = true) : ¬k.Unsatisfied := by
  rintro (hs | ⟨hs, -⟩) <;> rw [ready, hs] at h <;> cases h

/-- The deposit of a result that a callback is waiting for. -/
theorem Inv.answer (h : k.Inv broken) (hun : k.Unsatisfied) (hstate : k.state ≠ .empty) {t : τ}
    {w : Option τ} (hw : w = some t ∨ w = none ∧ t = broken) :
    Inv broken (consumed { k with result := some t, wasSet := w }) ∧
      (consumed { k with result := some t, wasSet := w }).Gave broken ∧
      k.retrieved = true ∧ k.futureValid = false := by
  have hgave : (consumed { k with result := some t, wasSet := w }).Gave broken :=
    ⟨t, by simp [consumed], hw⟩
  have hcallback : k.state = .hasCallback ∧ k.callback ≠ none := hun.resolve_left hstate
  have hretrieved : k.retrieved = true := by
    by_contra hr
    exact hcallback.2 (h.quiet (by simpa using hr)).2.1
  have hvalid : k.futureValid = false := by
    by_contra hv
    rcases h.valid (by simpa using hv) with hs | hs
    · exact hstate hs
    · rw [hcallback.1] at hs
      cases hs
  refine ⟨⟨fun hun' => ?_, fun _ => .inr hgave, fun hr => ?_, fun hv => ?_⟩, hgave, hretrieved,
    hvalid⟩
  · exact absurd hun' (not_unsatisfied_of_callback_none hstate rfl)
  · rw [show (consumed { k with result := some t, wasSet := w }).retrieved = k.retrieved from rfl,
      hretrieved] at hr
    cases hr
  · rw [show (consumed { k with result := some t, wasSet := w }).futureValid = k.futureValid
      from rfl, hvalid] at hv
    cases hv

/-- A callback comes first. -/
theorem Inv.installFirst (h : k.Inv broken) (hvalid : k.futureValid = true)
    (hstate : k.state = .empty) (cb : ℕ) :
    Inv broken { k with callback := some cb, state := .hasCallback, futureValid := false } where
  pending _ := h.pending (.inl hstate)
  served hun := absurd (.inr ⟨rfl, nofun⟩) hun
  quiet hr := by
    have := (h.quiet hr).2.2
    rw [hvalid] at this
    cases this
  valid hv := nomatch hv

/-- The consumer takes what is there. -/
theorem Inv.take (h : k.Inv broken) (hvalid : k.futureValid = true) (hstate : k.state ≠ .empty)
    (still : Bool) :
    Inv broken { k.consumed with futureValid := still } ∧ k.consumed.Gave broken ∧
      k.retrieved = true := by
  have hresult : k.state = .hasResult := (h.valid hvalid).resolve_left hstate
  have hun : ¬k.Unsatisfied := by
    rintro (hs | ⟨hs, -⟩) <;> rw [hresult] at hs <;> cases hs
  have hgave : k.consumed.Gave broken := by
    rcases h.served hun with ⟨t, -, hr, howes⟩ | ⟨t, ht, howes⟩
    · exact ⟨t, by simp [consumed, hr], howes⟩
    · exact ⟨t, by simp [consumed, ht], howes⟩
  have hretrieved : k.retrieved = true := by
    by_contra hr
    have := (h.quiet (by simpa using hr)).2.2
    rw [hvalid] at this
    cases this
  refine ⟨⟨fun hun' => ?_, fun _ => .inr hgave, fun hr => ?_, fun _ => .inr hresult⟩, hgave,
    hretrieved⟩
  · exact absurd hun' (not_unsatisfied_of_callback_none hstate rfl)
  · rw [show k.consumed.retrieved = k.retrieved from rfl, hretrieved] at hr
    cases hr

/-- The callback has returned. -/
theorem Inv.finish (hgave : k.Gave broken) (hretrieved : k.retrieved = true) :
    Inv broken { k with state := .done, futureValid := false } where
  pending hun := by
    rcases hun with hun | ⟨hun, -⟩ <;> cases hun
  served _ := .inr hgave
  quiet hr := by
    rw [hretrieved] at hr
    cases hr
  valid hv := nomatch hv

end Core

/-! ## The invariant -/

/-- The promise owns the core. -/
def Owns (s : State τ) (p c : ℕ) : Prop := ∃ q, s.promises p = some q ∧ q.core = some c

/-- Every core that owes its future something is owned, and no core by two promises. -/
structure Owners (s : State τ) : Prop where
  alive_lt : ∀ p, s.numPromises ≤ p → s.promises p = none
  core_lt : ∀ p c, Owns s p c → c < s.numCores
  fresh : ∀ c, s.numCores ≤ c → (s.cores c).retrieved = false
  unique : ∀ p p' c, Owns s p c → Owns s p' c → p = p'
  retrieved : ∀ p q c, s.promises p = some q → q.core = some c →
    q.retrieved = (s.cores c).retrieved
  owned : ∀ c, (s.cores c).retrieved = true → (s.cores c).Unsatisfied → ∃ p, Owns s p c

/-- A callback that is waiting was not called, and is on one core. -/
structure Calls (s : State τ) : Prop where
  waiting : ∀ c cb, (s.cores c).callback = some cb → cb < s.numCallbacks ∧ cb ∉ s.called
  unique : ∀ c c' cb, (s.cores c).callback = some cb → (s.cores c').callback = some cb → c = c'
  called_lt : ∀ cb ∈ s.called, cb < s.numCallbacks
  nodup : s.called.Nodup

structure Inv (broken : τ) (s : State τ) : Prop where
  core : ∀ c, (s.cores c).Inv broken
  owners : Owners s
  calls : Calls s
  gave : ∀ f ∈ s.running, (s.cores f.core).Gave broken ∧ (s.cores f.core).retrieved = true
  ended : ∀ f ∈ s.running, f.caller ≠ .consumer → (s.cores f.core).futureValid = false
  defined : s.undefinedCall = false

variable {broken : τ} {s : State τ} {c : ℕ} {k : Core τ}

theorem Inv.start : Inv broken (State.start : State τ) where
  core _ := .fresh
  owners :=
    { alive_lt := fun _ _ => rfl
      core_lt := fun _ _ h => nomatch h.choose_spec.1
      fresh := fun _ _ => rfl
      unique := fun _ _ _ h => nomatch h.choose_spec.1
      retrieved := fun _ _ _ h => nomatch h
      owned := fun _ h => nomatch h }
  calls :=
    { waiting := fun _ _ h => nomatch h
      unique := fun _ _ _ h => nomatch h
      called_lt := fun _ h => nomatch h
      nodup := List.nodup_nil }
  gave _ h := nomatch h
  ended _ h := nomatch h
  defined := rfl

/-! ### Updates of a core -/

theorem setCore_self : (s.setCore c k).cores c = k := Function.update_self ..

theorem setCore_of_ne {c' : ℕ} (h : c' ≠ c) : (s.setCore c k).cores c' = s.cores c' :=
  Function.update_of_ne h ..

/-- What holds of the new core and of all others holds of all. -/
theorem forall_setCore {P : ℕ → Core τ → Prop} (hk : P c k)
    (h : ∀ c', c' ≠ c → P c' (s.cores c')) (c' : ℕ) : P c' ((s.setCore c k).cores c') := by
  by_cases hc : c' = c
  · rw [hc, setCore_self]
    exact hk
  · rw [setCore_of_ne hc]
    exact h c' hc

theorem Owners.setCore (h : Owners s) (hret : k.retrieved = (s.cores c).retrieved)
    (hun : k.Unsatisfied → (s.cores c).Unsatisfied) : Owners (s.setCore c k) := by
  have hkeep (c' : ℕ) : ((s.setCore c k).cores c').retrieved = (s.cores c').retrieved :=
    forall_setCore (P := fun c' k' => k'.retrieved = (s.cores c').retrieved) hret
      (fun _ _ => rfl) c'
  refine ⟨h.alive_lt, h.core_lt, fun c' hc' => ?_, h.unique, fun p q c' hp hq => ?_,
    fun c' hr hu => ?_⟩
  · rw [hkeep]
    exact h.fresh c' hc'
  · rw [hkeep]
    exact h.retrieved p q c' hp hq
  · rw [hkeep] at hr
    refine h.owned c' hr ?_
    by_cases hc : c' = c
    · subst hc
      rw [setCore_self] at hu
      exact hun hu
    · rw [setCore_of_ne hc] at hu
      exact hu

theorem Calls.setCore (h : Calls s) (hcb : ∀ cb, k.callback = some cb →
    (s.cores c).callback = some cb) : Calls (s.setCore c k) := by
  have hback (c' cb : ℕ) : ((s.setCore c k).cores c').callback = some cb →
      (s.cores c').callback = some cb :=
    forall_setCore (P := fun c' k' => k'.callback = some cb → (s.cores c').callback = some cb)
      (hcb cb) (fun _ _ => id) c'
  exact ⟨fun c' cb hc' => h.waiting c' cb (hback c' cb hc'),
    fun c₁ c₂ cb h₁ h₂ => h.unique c₁ c₂ cb (hback c₁ cb h₁) (hback c₂ cb h₂), h.called_lt, h.nodup⟩

theorem Inv.gave_setCore (h : Inv broken s) (hret : k.retrieved = (s.cores c).retrieved)
    (hgave : (s.cores c).Gave broken → k.Gave broken) (f : Frame) (hf : f ∈ s.running) :
    ((s.setCore c k).cores f.core).Gave broken ∧
      ((s.setCore c k).cores f.core).retrieved = true := by
  obtain ⟨hg, hr⟩ := h.gave f hf
  refine forall_setCore (P := fun c' k' => c' = f.core → k'.Gave broken ∧ k'.retrieved = true)
    ?_ ?_ f.core rfl
  · rintro rfl
    exact ⟨hgave hg, hret.trans hr⟩
  · rintro c' - rfl
    exact ⟨hg, hr⟩

theorem Inv.ended_setCore (h : Inv broken s)
    (hvalid : (s.cores c).futureValid = false → k.futureValid = false) (f : Frame)
    (hf : f ∈ s.running) (hcaller : f.caller ≠ .consumer) :
    ((s.setCore c k).cores f.core).futureValid = false := by
  have hended := h.ended f hf hcaller
  refine forall_setCore (P := fun c' k' => c' = f.core → k'.futureValid = false) ?_ ?_ f.core rfl
  · rintro rfl
    exact hvalid hended
  · rintro c' - rfl
    exact hended

/-- A core is changed by its promise or its consumer. -/
theorem Inv.setCore (h : Inv broken s) (hk : k.Inv broken)
    (hret : k.retrieved = (s.cores c).retrieved)
    (hun : k.Unsatisfied → (s.cores c).Unsatisfied)
    (hgave : (s.cores c).Gave broken → k.Gave broken)
    (hvalid : (s.cores c).futureValid = false → k.futureValid = false)
    (hcb : ∀ cb, k.callback = some cb → (s.cores c).callback = some cb) :
    Inv broken (s.setCore c k) where
  core := forall_setCore (P := fun _ k' => k'.Inv broken) hk fun c' _ => h.core c'
  owners := h.owners.setCore hret hun
  calls := h.calls.setCore hcb
  gave := h.gave_setCore hret hgave
  ended := h.ended_setCore hvalid
  defined := h.defined

theorem Calls.mono {n : ℕ} (h : Calls s) (hn : s.numCallbacks ≤ n) :
    Calls { s with numCallbacks := n } where
  waiting c cb hc := ⟨(h.waiting c cb hc).1.trans_le hn, (h.waiting c cb hc).2⟩
  unique := h.unique
  called_lt cb hcb := (h.called_lt cb hcb).trans_le hn
  nodup := h.nodup

/-- A new callback. -/
theorem Calls.install (h : Calls s) (hcb : k.callback = some s.numCallbacks) :
    Calls ({ s with numCallbacks := s.numCallbacks + 1 }.setCore c k) := by
  have hnew : s.numCallbacks ∉ s.called := fun hmem => (h.called_lt _ hmem).false
  have hold (c' cb : ℕ) (hc' : c' ≠ c)
      (hcb' : (({ s with numCallbacks := s.numCallbacks + 1 }.setCore c k).cores c').callback =
        some cb) : (s.cores c').callback = some cb := by
    rwa [setCore_of_ne hc'] at hcb'
  have hself (cb : ℕ)
      (hcb' : (({ s with numCallbacks := s.numCallbacks + 1 }.setCore c k).cores c).callback =
        some cb) : cb = s.numCallbacks := by
    rw [setCore_self, hcb] at hcb'
    exact (Option.some.inj hcb').symm
  refine ⟨fun c' cb hc' => ?_, fun c₁ c₂ cb h₁ h₂ => ?_, (h.mono (Nat.le_succ _)).called_lt,
    h.nodup⟩
  · by_cases hc : c' = c
    · subst hc
      obtain rfl := hself cb hc'
      exact ⟨Nat.lt_succ_self _, hnew⟩
    · exact (h.mono (Nat.le_succ _)).waiting c' cb (hold c' cb hc hc')
  · by_cases hc₁ : c₁ = c
    · subst hc₁
      obtain rfl := hself cb h₁
      by_contra hne
      exact (h.waiting c₂ _ (hold c₂ _ (fun heq => hne heq.symm) h₂)).1.false
    · by_cases hc₂ : c₂ = c
      · subst hc₂
        obtain rfl := hself cb h₂
        exact absurd (h.waiting c₁ _ (hold c₁ _ hc₁ h₁)).1 (lt_irrefl _)
      · exact h.unique c₁ c₂ cb (hold c₁ cb hc₁ h₁) (hold c₂ cb hc₂ h₂)

/-- A callback is called. -/
theorem Calls.call {cb : ℕ} (running : List Frame) (h : Calls s)
    (hcb : (s.cores c).callback = some cb) :
    Calls { s.setCore c (s.cores c).consumed with
      called := s.called ++ [cb], running := running } := by
  obtain ⟨hlt, hnot⟩ := h.waiting c cb hcb
  have hother (c' cb' : ℕ)
      (hc' : ((s.setCore c (s.cores c).consumed).cores c').callback = some cb') :
      c' ≠ c ∧ (s.cores c').callback = some cb' := by
    by_cases hc : c' = c
    · subst hc
      rw [setCore_self] at hc'
      cases hc'
    · rw [setCore_of_ne hc] at hc'
      exact ⟨hc, hc'⟩
  refine ⟨fun c' cb' hc' => ?_, fun c₁ c₂ cb' h₁ h₂ => ?_, fun cb' hmem => ?_, ?_⟩
  · obtain ⟨hne, hold⟩ := hother c' cb' hc'
    refine ⟨(h.waiting c' cb' hold).1, ?_⟩
    rw [List.mem_append, List.mem_singleton, not_or]
    refine ⟨(h.waiting c' cb' hold).2, ?_⟩
    rintro rfl
    exact hne (h.unique c' c cb' hold hcb)
  · exact h.unique c₁ c₂ cb' (hother c₁ cb' h₁).2 (hother c₂ cb' h₂).2
  · rcases List.mem_append.mp hmem with hmem | hmem
    · exact h.called_lt cb' hmem
    · rw [List.mem_singleton.mp hmem]
      exact hlt
  · exact List.nodup_append.mpr ⟨h.nodup, List.nodup_singleton cb, fun a ha b hb hab =>
      hnot (List.mem_singleton.mp hb ▸ hab ▸ ha)⟩

/-- A callback is called on a result that the core owes. -/
theorem Inv.call {n cb : ℕ} {caller : Caller} (h : Inv broken s)
    (hcalls : Calls ({ s with numCallbacks := n }.setCore c k)) (hcb : k.callback = some cb)
    (hret : k.retrieved = (s.cores c).retrieved) (hk : k.consumed.Inv broken)
    (hgave : k.consumed.Gave broken) (htrue : k.retrieved = true)
    (hvalid : (s.cores c).futureValid = false → k.futureValid = false)
    (hcaller : caller ≠ .consumer → k.futureValid = false) :
    Inv broken (({ s with numCallbacks := n }.setCore c k).runAndComplete c caller) := by
  have hnext := (h.owners.setCore (c := c) (k := k.consumed) hret fun hun =>
    absurd hun (hgave.not_unsatisfied hk))
  have hcall := hcalls.call (c := c) (s.running ++ [{ core := c, caller := caller }])
    (by rw [setCore_self, hcb])
  have heq : ({ s with numCallbacks := n }.setCore c k).setCore c k.consumed =
      { s.setCore c k.consumed with numCallbacks := n } := by
    simp only [State.setCore, Function.update_idem]
  rw [setCore_self, heq] at hcall
  rw [State.runAndComplete, setCore_self, hcb, heq]
  refine ⟨?_, ⟨hnext.alive_lt, hnext.core_lt, hnext.fresh, hnext.unique, hnext.retrieved,
    hnext.owned⟩, hcall, fun f hf => ?_, fun f hf hf' => ?_, h.defined⟩
  · exact forall_setCore (P := fun _ k' => k'.Inv broken) hk fun c' _ => h.core c'
  · rcases List.mem_append.mp hf with hf | hf
    · exact h.gave_setCore (k := k.consumed) hret (fun _ => hgave) f hf
    · obtain rfl := List.mem_singleton.mp hf
      have hself := setCore_self (s := s) (c := c) (k := k.consumed)
      have hgave' : ((s.setCore c k.consumed).cores c).Gave broken := by
        rw [hself]
        exact hgave
      exact ⟨hgave', (congrArg Core.retrieved hself).trans htrue⟩
  · rcases List.mem_append.mp hf with hf | hf
    · exact h.ended_setCore (k := k.consumed) hvalid f hf hf'
    · obtain rfl := List.mem_singleton.mp hf
      have hself := setCore_self (s := s) (c := c) (k := k.consumed)
      exact (congrArg Core.futureValid hself).trans (hcaller hf')

/-! ### Updates of a promise -/

variable {p dst src n : ℕ} {q : Promise} {r : Option Promise}

theorem setPromise_self : (s.setPromise p r).promises p = r := Function.update_self ..

theorem setPromise_of_ne {p' : ℕ} (h : p' ≠ p) : (s.setPromise p r).promises p' = s.promises p' :=
  Function.update_of_ne h ..

/-- The promise owes its future a result. -/
def InDebt (s : State τ) (p : ℕ) : Prop :=
  ∃ c, Owns s p c ∧ (s.cores c).retrieved = true ∧ (s.cores c).Unsatisfied

theorem owns_release (hr : ∀ q ∈ r, q.core = none) {p' c : ℕ} :
    Owns (s.setPromise p r) p' c ↔ p' ≠ p ∧ Owns s p' c := by
  by_cases hp : p' = p
  · subst hp
    refine ⟨fun ⟨q, hq, hc⟩ => ?_, fun h => absurd rfl h.1⟩
    rw [setPromise_self] at hq
    rw [hr q hq] at hc
    cases hc
  · rw [Owns, setPromise_of_ne hp]
    exact ⟨fun h => ⟨hp, h⟩, fun h => h.2⟩

/-- A promise that is in no debt lets go of its core. -/
theorem Owners.release (h : Owners s) (hr : ∀ q ∈ r, q.core = none)
    (hdead : s.promises p = none → r = none) (hdebt : ¬InDebt s p) :
    Owners (s.setPromise p r) where
  alive_lt p' hp' := by
    have hnone : s.promises p' = none := h.alive_lt p' hp'
    by_cases hp : p' = p
    · subst hp
      rw [setPromise_self]
      exact hdead hnone
    · rw [setPromise_of_ne hp]
      exact hnone
  core_lt p' c hown := h.core_lt p' c ((owns_release hr).mp hown).2
  fresh := h.fresh
  unique p₁ p₂ c h₁ h₂ := h.unique p₁ p₂ c ((owns_release hr).mp h₁).2 ((owns_release hr).mp h₂).2
  retrieved p' q c hq hc := by
    obtain ⟨hne, -⟩ := (owns_release hr).mp ⟨q, hq, hc⟩
    rw [setPromise_of_ne hne] at hq
    exact h.retrieved p' q c hq hc
  owned c hc hun := by
    obtain ⟨p', hown⟩ := h.owned c hc hun
    refine ⟨p', (owns_release hr).mpr ⟨?_, hown⟩⟩
    rintro rfl
    exact hdebt ⟨c, hown, hc, hun⟩

/-- One promise moves to another, which lets go of its core. -/
def State.move (s : State τ) (dst src : ℕ) (q : Promise) (n : ℕ) : State τ :=
  { (s.setPromise src (some { q with core := none })).setPromise dst (some q) with
    numPromises := n }

theorem owns_move (hsrc : s.promises src = some q) (hne : dst ≠ src) {p' c : ℕ} :
    Owns (s.move dst src q n) p' c ↔
      p' = dst ∧ Owns s src c ∨ p' ≠ dst ∧ p' ≠ src ∧ Owns s p' c := by
  have hmid : ∀ q' ∈ some { q with core := none }, q'.core = none := by
    rintro q' hq'
    cases hq'
    rfl
  by_cases hp : p' = dst
  · subst hp
    have hself : (s.move p' src q n).promises p' = some q := setPromise_self
    simp [Owns, hself, hsrc]
  · have hother : (s.move dst src q n).promises p' =
        (s.setPromise src (some { q with core := none })).promises p' := setPromise_of_ne hp
    have hrelease : Owns (s.setPromise src (some { q with core := none })) p' c ↔
        p' ≠ src ∧ Owns s p' c := owns_release hmid
    rw [Owns, hother, ← Owns, hrelease]
    simp [hp]

theorem Owners.move (h : Owners s) (hsrc : s.promises src = some q) (hne : dst ≠ src)
    (hdebt : ¬InDebt s dst) (hn : s.numPromises ≤ n) (hlt : dst < n) :
    Owners (s.move dst src q n) where
  alive_lt p' hp' := by
    have hle : n ≤ p' := hp'
    have hdst : p' ≠ dst := by omega
    have hnone := h.alive_lt p' (hn.trans hle)
    have hsrc' : p' ≠ src := by
      rintro rfl
      rw [hsrc] at hnone
      cases hnone
    rw [State.move, setPromise_of_ne hdst, setPromise_of_ne hsrc']
    exact hnone
  core_lt p' c hown := by
    rcases (owns_move hsrc hne).mp hown with ⟨-, hown⟩ | ⟨-, -, hown⟩ <;> exact h.core_lt _ c hown
  fresh := h.fresh
  unique p₁ p₂ c h₁ h₂ := by
    rcases (owns_move hsrc hne).mp h₁ with ⟨hd₁, ho₁⟩ | ⟨hd₁, hs₁, ho₁⟩
    · rcases (owns_move hsrc hne).mp h₂ with ⟨hd₂, -⟩ | ⟨-, hs₂, ho₂⟩
      · rw [hd₁, hd₂]
      · exact absurd (h.unique _ _ c ho₂ ho₁) hs₂
    · rcases (owns_move hsrc hne).mp h₂ with ⟨-, ho₂⟩ | ⟨-, -, ho₂⟩
      · exact absurd (h.unique _ _ c ho₁ ho₂) hs₁
      · exact h.unique _ _ c ho₁ ho₂
  retrieved p' q' c hq' hc := by
    by_cases hp : p' = dst
    · subst hp
      rw [State.move, setPromise_self] at hq'
      cases hq'
      exact h.retrieved src q c hsrc hc
    · rw [State.move, setPromise_of_ne hp] at hq'
      by_cases hp' : p' = src
      · subst hp'
        rw [setPromise_self] at hq'
        cases hq'
        cases hc
      · rw [setPromise_of_ne hp'] at hq'
        exact h.retrieved p' q' c hq' hc
  owned c hc hun := by
    obtain ⟨p', hown⟩ := h.owned c hc hun
    by_cases hp : p' = src
    · subst hp
      exact ⟨dst, (owns_move hsrc hne).mpr (.inl ⟨rfl, hown⟩)⟩
    · refine ⟨p', (owns_move hsrc hne).mpr (.inr ⟨?_, hp, hown⟩)⟩
      rintro rfl
      exact hdebt ⟨c, hown, hc, hun⟩

end Sirius.Exec.Promises
