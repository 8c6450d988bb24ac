import Sirius.Common.Run

/-!
# Batch streams

Model of `batch_stream` (`src/exec/batch_stream.cpp`). Every operation is one critical
section, except `try_pull`: it looks at the error under the lock and pops the repository
outside it, so other threads can act in between. The hooks are left out; they run outside
the lock.

The repository of cucascade is the list of its batches. It hands out any of them, by the
choice of the action; what is assumed of it is that it keeps every batch it was given, hands
out each of them once, and is empty when it hands out nothing.

* `step`: one critical section or one pop. The trace records what each of them returned.
* `Inv`: the stream as a function of its trace.
* `Trace.Contract`, `trace_contract`: the contract of the stream, over every run.
-/

namespace Sirius.Exec.BatchStream

open Sirius.Common

/-- `sender_id_t`. -/
abbrev SenderId := UInt32

inductive Availability where
  | hasData
  | waiting
  | endOfStream
  deriving DecidableEq, Repr

/-- What an operation returned. A `try_pull` of consumer `c` is first `checked`, or it is
    `rethrown`. -/
inductive Event (B E : Type) where
  | pushed (batch : B) (accepted : Bool)
  | closed (sender : SenderId)
  | closeRejected (sender : SenderId)
  | failed (error : E)
  | failRejected
  | checked (c : ℕ)
  | rethrown (c : ℕ) (error : E)
  | pulled (c : ℕ) (batch : Option B)
  | classified (a : Availability)
  | drained (answer : Bool)
  deriving DecidableEq, Repr

/-- The members of a `batch_stream`, with the consumers between the two halves of
    `try_pull` and the trace, latest event first. -/
structure Stream (B E : Type) where
  expected : Finset SenderId
  closed : Finset SenderId := ∅
  terminal : Bool
  error : Option E := none
  repo : List B := []
  popping : List ℕ := []
  trace : List (Event B E) := []

variable {B E : Type}

/-- The constructor: a stream without senders is terminal from the start. -/
def create (expected : Finset SenderId) : Stream B E :=
  { expected := expected, terminal := decide (expected = ∅) }

inductive Act (B E : Type) where
  | push (batch : B)
  | close (sender : SenderId)
  | fail (error : Option E)
  | tryPull (c : ℕ)
  | pop (c i : ℕ)
  | classify
  | drained
  deriving DecidableEq, Repr

def Stream.log (s : Stream B E) (e : Event B E) : Stream B E := { s with trace := e :: s.trace }

/-- `push` (lines 41–53). -/
def Stream.push (s : Stream B E) (batch : B) : Stream B E :=
  if s.terminal then s.log (.pushed batch false)
  else { s with repo := s.repo ++ [batch] }.log (.pushed batch true)

/-- `close` (lines 55–75). -/
def Stream.close (s : Stream B E) (sender : SenderId) : Stream B E :=
  if sender ∉ s.expected then s.log (.closeRejected sender)
  else
    let closed := insert sender s.closed
    { s with
      closed := closed
      terminal := s.terminal || !decide (closed.card < s.expected.card) }.log (.closed sender)

/-- `fail` (lines 77–98); `none` is the null error. -/
def Stream.fail (s : Stream B E) : Option E → Stream B E
  | none => s.log .failRejected
  | some error =>
    match s.error with
    | some _ => s.log (.failed error)
    | none => { s with error := some error, terminal := true }.log (.failed error)

/-- The first half of `try_pull` (line 102). -/
def Stream.tryPull (s : Stream B E) (c : ℕ) : Stream B E :=
  match s.error with
  | some error => s.log (.rethrown c error)
  | none => { s with popping := c :: s.popping }.log (.checked c)

/-- The second half of `try_pull` (line 105): the repository hands out its batch `i`. -/
def Stream.pop (s : Stream B E) (c i : ℕ) : Option (Stream B E) :=
  if c ∉ s.popping then none
  else if s.repo = [] then some ({ s with popping := s.popping.erase c }.log (.pulled c none))
  else s.repo[i]?.map fun batch =>
    { s with repo := s.repo.eraseIdx i, popping := s.popping.erase c }.log (.pulled c (some batch))

/-- `classify` (lines 108–113). -/
def Stream.classify (s : Stream B E) : Availability :=
  if s.error.isSome || !s.repo.isEmpty then .hasData
  else if s.terminal then .endOfStream else .waiting

/-- `drained` (lines 115–119). -/
def Stream.drained (s : Stream B E) : Bool := s.terminal && s.error.isNone && s.repo.isEmpty

def step (s : Stream B E) : Act B E → Option (Stream B E)
  | .push batch => some (s.push batch)
  | .close sender => some (s.close sender)
  | .fail error => some (s.fail error)
  | .tryPull c => some (s.tryPull c)
  | .pop c i => s.pop c i
  | .classify => some (s.log (.classified s.classify))
  | .drained => some (s.log (.drained s.drained))

/-! ## Traces -/

/-- The batches that were accepted. -/
def acceptedBatches (tr : List (Event B E)) : List B :=
  tr.filterMap fun
    | .pushed batch true => some batch
    | _ => none

/-- The batches that a `try_pull` returned. -/
def pulledBatches (tr : List (Event B E)) : List B :=
  tr.filterMap fun
    | .pulled _ (some batch) => some batch
    | _ => none

/-- The first error passed to `fail`. -/
def firstError : List (Event B E) → Option E
  | [] => none
  | .failed error :: tr => (firstError tr).or (some error)
  | _ :: tr => firstError tr

/-- How many calls of `try_pull` of consumer `c` passed the check, and how many returned
    after it. -/
def started (c : ℕ) (tr : List (Event B E)) : ℕ :=
  tr.countP fun
    | .checked c' => c' = c
    | _ => false

def returned (c : ℕ) (tr : List (Event B E)) : ℕ :=
  tr.countP fun
    | .pulled c' _ => c' = c
    | _ => false

/-- Every expected sender has closed, or `fail` was called. -/
def Ended (expected : Finset SenderId) (tr : List (Event B E)) : Prop :=
  (∀ sender ∈ expected, Event.closed sender ∈ tr) ∨ ∃ error, Event.failed error ∈ tr

theorem firstError_isSome {tr : List (Event B E)} :
    (firstError tr).isSome = true ↔ ∃ error, Event.failed error ∈ tr := by
  induction tr with
  | nil => simp [firstError]
  | cons e tr ih =>
    cases e with
    | failed error => simp [firstError]
    | _ => simp [firstError, ih]

theorem firstError_append {later earlier : List (Event B E)} {error : E}
    (h : firstError earlier = some error) : firstError (later ++ earlier) = some error := by
  induction later with
  | nil => exact h
  | cons e later ih =>
    rw [List.cons_append]
    cases e with
    | failed error' => rw [firstError, ih]; rfl
    | _ => exact ih

theorem Ended.append {expected : Finset SenderId} {earlier : List (Event B E)}
    (h : Ended expected earlier) (later : List (Event B E)) : Ended expected (later ++ earlier) := by
  rcases h with h | ⟨error, h⟩
  · exact .inl fun sender hs => List.mem_append_right _ (h sender hs)
  · exact .inr ⟨error, List.mem_append_right _ h⟩

/-! ## The invariant -/

/-- The members of the stream are functions of its trace. -/
structure Inv (expected : Finset SenderId) (s : Stream B E) : Prop where
  senders : s.expected = expected
  closed : ∀ sender, sender ∈ s.closed ↔ Event.closed sender ∈ s.trace
  subset : s.closed ⊆ expected
  terminal : s.terminal = true ↔ Ended expected s.trace
  error : s.error = firstError s.trace
  repo : (pulledBatches s.trace ++ s.repo).Perm (acceptedBatches s.trace)
  popping : ∀ c, returned c s.trace + s.popping.count c = started c s.trace

theorem inv_create (expected : Finset SenderId) : Inv expected (create expected : Stream B E) where
  senders := rfl
  closed := by simp [create]
  subset := by simp [create]
  terminal := by
    simp only [create, decide_eq_true_eq, Ended, List.not_mem_nil, exists_false, or_false,
      imp_false]
    exact Finset.eq_empty_iff_forall_notMem
  error := rfl
  repo := List.Perm.refl _
  popping := fun _ => rfl

/-- An event that neither closes, fails, pushes nor pulls. -/
def Event.quiet : Event B E → Bool
  | .pushed _ ok => !ok
  | .closed _ | .failed _ | .checked _ | .pulled _ _ => false
  | _ => true

variable {s s' : Stream B E}

theorem Inv.log_quiet {expected : Finset SenderId} (h : Inv expected s) {e : Event B E}
    (he : e.quiet = true) : Inv expected (s.log e) := by
  obtain ⟨h₁, h₂, h₃, h₄, h₅, h₆, h₇⟩ := h
  cases e with
  | pushed batch ok =>
    obtain rfl : ok = false := by simpa [Event.quiet] using he
    exact ⟨h₁, by simpa [Stream.log] using h₂, h₃, by simpa [Stream.log, Ended] using h₄, h₅, h₆, h₇⟩
  | closed | failed | checked | pulled => cases he
  | _ => exact ⟨h₁, by simpa [Stream.log] using h₂, h₃, by simpa [Stream.log, Ended] using h₄, h₅, h₆,
      h₇⟩

theorem inv_push {expected : Finset SenderId} (h : Inv expected s) (batch : B) :
    Inv expected (s.push batch) := by
  unfold Stream.push
  split_ifs with hterminal
  · exact h.log_quiet rfl
  · refine ⟨h.senders, by simpa [Stream.log] using h.closed, h.subset,
      by simpa [Stream.log, Ended] using h.terminal, h.error, ?_, h.popping⟩
    have hperm : (pulledBatches s.trace ++ (s.repo ++ [batch])).Perm (batch :: acceptedBatches s.trace) := by
      rw [← List.append_assoc]
      exact (List.perm_append_singleton _ _).trans (h.repo.cons batch)
    exact hperm

theorem inv_close {expected : Finset SenderId} (h : Inv expected s)
    (sender : SenderId) : Inv expected (s.close sender) := by
  unfold Stream.close
  by_cases hsender : sender ∉ s.expected
  · rw [if_pos hsender]
    exact h.log_quiet rfl
  · rw [if_neg hsender]
    have hmem : sender ∈ expected := by
      rw [← h.senders]
      exact not_not.mp hsender
    have hsubset : insert sender s.closed ⊆ expected := Finset.insert_subset hmem h.subset
    refine ⟨h.senders, fun x => ?_, hsubset, ?_, h.error, h.repo, h.popping⟩
    · simp [Stream.log, h.closed x]
    · have hall : ¬(insert sender s.closed).card < s.expected.card ↔
          ∀ x ∈ expected, x ∈ insert sender s.closed := by
        rw [h.senders, not_lt]
        constructor
        · intro hcard x hx
          rw [Finset.eq_of_subset_of_card_le hsubset hcard]
          exact hx
        · exact fun hx => Finset.card_le_card hx
      have hclosed : ∀ x, x ∈ insert sender s.closed ↔
          Event.closed x ∈ (Event.closed sender :: s.trace : List (Event B E)) := by
        intro x
        simp [h.closed x]
      simp only [Stream.log, Bool.or_eq_true, Bool.not_eq_true', decide_eq_false_iff_not, hall,
        h.terminal]
      constructor
      · rintro (hended | hx)
        · exact hended.append [_]
        · exact .inl fun x hmem => (hclosed x).mp (hx x hmem)
      · rintro (hx | ⟨error, herror⟩)
        · exact .inr fun x hmem => (hclosed x).mpr (hx x hmem)
        · exact .inl (.inr ⟨error, by simpa using herror⟩)

theorem inv_fail {expected : Finset SenderId} (h : Inv expected s)
    (error : Option E) : Inv expected (s.fail error) := by
  unfold Stream.fail
  cases error with
  | none => exact h.log_quiet rfl
  | some error =>
    have hended : Ended expected (.failed error :: s.trace) := .inr ⟨error, by simp⟩
    cases hs : s.error with
    | some first =>
      have hfirst : firstError s.trace = some first := by rw [← h.error, hs]
      have hterminal : s.terminal = true := by
        refine h.terminal.mpr (.inr (firstError_isSome.mp ?_))
        rw [hfirst]
        rfl
      refine ⟨h.senders, by simpa [Stream.log] using h.closed, h.subset, ?_, ?_, h.repo, h.popping⟩
      · exact ⟨fun _ => hended, fun _ => hterminal⟩
      · simp [Stream.log, firstError, hfirst, hs]
    | none =>
      have hfirst : firstError s.trace = none := by rw [← h.error, hs]
      refine ⟨h.senders, by simpa [Stream.log] using h.closed, h.subset, ?_, ?_, h.repo, h.popping⟩
      · exact ⟨fun _ => hended, fun _ => rfl⟩
      · simp [Stream.log, firstError, hfirst]

theorem inv_tryPull {expected : Finset SenderId} (h : Inv expected s) (c : ℕ) :
    Inv expected (s.tryPull c) := by
  unfold Stream.tryPull
  cases hs : s.error with
  | some error => exact h.log_quiet rfl
  | none =>
    refine ⟨h.senders, by simpa [Stream.log] using h.closed, h.subset,
      by simpa [Stream.log, Ended] using h.terminal, hs.symm.trans h.error, h.repo, fun c' => ?_⟩
    have hc := h.popping c'
    by_cases heq : c = c'
    · simp [Stream.log, started, returned, heq] at hc ⊢
      omega
    · simp [Stream.log, started, returned, heq] at hc ⊢
      omega

theorem inv_pop {expected : Finset SenderId} (h : Inv expected s) {c i : ℕ}
    (hs : s.pop c i = some s') : Inv expected s' := by
  unfold Stream.pop at hs
  by_cases hc : c ∉ s.popping
  · rw [if_pos hc] at hs
    cases hs
  · rw [if_neg hc] at hs
    have hpos : 0 < s.popping.count c := List.count_pos_iff.mpr (not_not.mp hc)
    have hcount : ∀ batch c', returned c' (.pulled c batch :: s.trace) +
        (s.popping.erase c).count c' = started c' (.pulled c batch :: s.trace : List (Event B E)) := by
      intro batch c'
      have hc' := h.popping c'
      rw [List.count_erase]
      by_cases heq : c = c'
      · subst heq
        simp [started, returned] at hc' ⊢
        omega
      · simp [started, returned, heq] at hc' ⊢
        omega
    by_cases hrepo : s.repo = []
    · rw [if_pos hrepo] at hs
      obtain rfl := Option.some.inj hs
      exact ⟨h.senders, by simpa [Stream.log] using h.closed, h.subset,
        by simpa [Stream.log, Ended] using h.terminal, h.error, h.repo, hcount none⟩
    · rw [if_neg hrepo] at hs
      obtain ⟨batch, hbatch, rfl⟩ := Option.map_eq_some_iff.mp hs
      refine ⟨h.senders, by simpa [Stream.log] using h.closed, h.subset,
        by simpa [Stream.log, Ended] using h.terminal, h.error, ?_, hcount (some batch)⟩
      obtain ⟨hi, rfl⟩ := List.getElem?_eq_some_iff.mp hbatch
      have hperm : (s.repo[i] :: (pulledBatches s.trace ++ s.repo.eraseIdx i)).Perm
          (pulledBatches s.trace ++ s.repo) :=
        List.perm_middle.symm.trans ((List.getElem_cons_eraseIdx_perm hi).append_left _)
      exact hperm.trans h.repo

theorem inv_step {expected : Finset SenderId} {a : Act B E} (h : Inv expected s)
    (hs : step s a = some s') : Inv expected s' := by
  cases a with
  | push batch => obtain rfl := Option.some.inj hs; exact inv_push h batch
  | close sender => obtain rfl := Option.some.inj hs; exact inv_close h sender
  | fail error => obtain rfl := Option.some.inj hs; exact inv_fail h error
  | tryPull c => obtain rfl := Option.some.inj hs; exact inv_tryPull h c
  | pop c i => exact inv_pop h hs
  | classify | drained => obtain rfl := Option.some.inj hs; exact h.log_quiet rfl

/-! ## What each event says of the trace before it -/

/-- The answer of an operation, as a function of the trace before it. -/
def Event.Ok (expected : Finset SenderId) (earlier : List (Event B E)) : Event B E → Prop
  | .pushed _ ok => ok = true ↔ ¬Ended expected earlier
  | .checked _ => firstError earlier = none
  | .rethrown _ error => firstError earlier = some error
  | .classified a => a = .endOfStream ↔ Ended expected earlier ∧ firstError earlier = none ∧
      (pulledBatches earlier).Perm (acceptedBatches earlier)
  | .drained answer => answer = true ↔ Ended expected earlier ∧ firstError earlier = none ∧
      (pulledBatches earlier).Perm (acceptedBatches earlier)
  | _ => True

/-- A repository without batches: all accepted ones were pulled. -/
theorem Inv.repo_eq_nil {expected : Finset SenderId} (h : Inv expected s) :
    s.repo = [] ↔ (pulledBatches s.trace).Perm (acceptedBatches s.trace) := by
  constructor
  · intro hrepo
    have := h.repo
    rwa [hrepo, List.append_nil] at this
  · intro hperm
    have hlength := h.repo.length_eq
    rw [List.length_append, hperm.length_eq] at hlength
    exact List.eq_nil_of_length_eq_zero (by omega)

theorem Inv.clean_end {expected : Finset SenderId} (h : Inv expected s) :
    (s.terminal = true ∧ s.error = none ∧ s.repo = []) ↔
      Ended expected s.trace ∧ firstError s.trace = none ∧
        (pulledBatches s.trace).Perm (acceptedBatches s.trace) := by
  rw [h.terminal, h.error, h.repo_eq_nil]

theorem classify_eq_endOfStream :
    s.classify = .endOfStream ↔ s.terminal = true ∧ s.error = none ∧ s.repo = [] := by
  unfold Stream.classify
  cases s.error with
  | some error => simp
  | none =>
    by_cases hrepo : s.repo = []
    · cases hterminal : s.terminal <;> simp [hrepo]
    · simp [hrepo]

theorem drained_eq_true : s.drained = true ↔ s.terminal = true ∧ s.error = none ∧ s.repo = [] := by
  simp [Stream.drained, and_assoc]

/-- One step adds one event, which says what is true before it. -/
theorem step_event {expected : Finset SenderId} {a : Act B E} (h : Inv expected s)
    (hs : step s a = some s') : ∃ e, s'.trace = e :: s.trace ∧ e.Ok expected s.trace := by
  cases a with
  | push batch =>
    obtain rfl := Option.some.inj hs
    unfold Stream.push
    by_cases hterminal : s.terminal = true
    · rw [if_pos hterminal]
      exact ⟨_, rfl, by simpa [Event.Ok] using h.terminal.mp hterminal⟩
    · rw [if_neg hterminal]
      exact ⟨_, rfl, by simpa [Event.Ok, ← h.terminal] using hterminal⟩
  | close sender =>
    obtain rfl := Option.some.inj hs
    unfold Stream.close
    split_ifs
    · exact ⟨_, rfl, trivial⟩
    · exact ⟨_, rfl, trivial⟩
  | fail error =>
    obtain rfl := Option.some.inj hs
    cases error with
    | none => exact ⟨_, rfl, trivial⟩
    | some error =>
      unfold Stream.fail
      cases s.error with
      | none => exact ⟨_, rfl, trivial⟩
      | some first => exact ⟨_, rfl, trivial⟩
  | tryPull c =>
    obtain rfl := Option.some.inj hs
    have herror := h.error
    unfold Stream.tryPull
    cases hs : s.error with
    | none => exact ⟨_, rfl, herror.symm.trans hs⟩
    | some error => exact ⟨_, rfl, herror.symm.trans hs⟩
  | pop c i =>
    change s.pop c i = some s' at hs
    unfold Stream.pop at hs
    split_ifs at hs
    · obtain rfl := Option.some.inj hs
      exact ⟨_, rfl, trivial⟩
    · obtain ⟨batch, -, rfl⟩ := Option.map_eq_some_iff.mp hs
      exact ⟨_, rfl, trivial⟩
  | classify =>
    obtain rfl := Option.some.inj hs
    exact ⟨_, rfl, classify_eq_endOfStream.trans h.clean_end⟩
  | drained =>
    obtain rfl := Option.some.inj hs
    exact ⟨_, rfl, drained_eq_true.trans h.clean_end⟩

/-- What holds of every state that a run passes: `earlier` is the trace up to that state. -/
structure Past (expected : Finset SenderId) (earlier : List (Event B E)) : Prop where
  repo : ∃ repo, (pulledBatches earlier ++ repo).Perm (acceptedBatches earlier)
  popping : ∀ c, returned c earlier ≤ started c earlier
  ok : ∀ e older, earlier = e :: older → e.Ok expected older

theorem run_past {expected : Finset SenderId} {acts : List (Act B E)}
    (h : run step (create expected) acts = some s) :
    Inv expected s ∧ ∀ later earlier, s.trace = later ++ earlier → Past expected earlier := by
  refine run_invariant (I := fun s => Inv expected s ∧
    ∀ later earlier, s.trace = later ++ earlier → Past expected earlier) ?_ ?_ h
  · rintro s a s' ⟨hinv, hpast⟩ hs
    have hinv' := inv_step hinv hs
    obtain ⟨e, htrace, hok⟩ := step_event hinv hs
    refine ⟨hinv', fun later earlier heq => ?_⟩
    cases later with
    | nil =>
      rw [List.nil_append] at heq
      subst heq
      refine ⟨⟨_, hinv'.repo⟩, fun c => Nat.le_of_add_right_le (hinv'.popping c).le, ?_⟩
      rintro e' older heq'
      rw [htrace] at heq'
      obtain ⟨rfl, rfl⟩ := List.cons.inj heq'
      exact hok
    | cons e' later =>
      rw [htrace, List.cons_append] at heq
      exact hpast later earlier (List.cons.inj heq).2
  · refine ⟨inv_create expected, fun later earlier heq => ?_⟩
    obtain ⟨-, rfl⟩ := List.append_eq_nil_iff.mp heq.symm
    exact ⟨⟨[], List.Perm.refl _⟩, fun _ => le_rfl, by rintro e older ⟨⟩⟩

/-! ## The contract -/

/-- The contract of a stream, over a whole trace: latest event first, so `earlier` is what
    happened before an event and `later` what happened after it. -/
structure Contract (expected : Finset SenderId) (trace : List (Event B E)) : Prop where
  push : ∀ later batch ok earlier, trace = later ++ Event.pushed batch ok :: earlier →
    (ok = true ↔ ¬Ended expected earlier)
  once : (pulledBatches trace).Subperm (acceptedBatches trace)
  eos : (∀ error, Event.failed error ∉ trace) → ∀ later earlier,
    trace = later ++ Event.classified .endOfStream :: earlier →
      (pulledBatches earlier).Perm (acceptedBatches earlier) ∧ Ended expected earlier ∧
        (∀ a, Event.classified a ∈ later → a = .endOfStream) ∧ (∀ batch, Event.pushed batch true ∉ later)
  poison : ∀ later error earlier, trace = later ++ Event.failed error :: earlier →
    (∀ e, Event.failed e ∉ earlier) →
      (∀ c, Event.checked c ∉ later) ∧ (∀ c e, Event.rethrown c e ∈ later → e = error) ∧
      (∀ c, returned c trace ≤ started c earlier) ∧
      Event.classified .endOfStream ∉ later ∧ Event.drained true ∉ later

section Contract

variable {expected : Finset SenderId} {trace : List (Event B E)}

/-- No batch is accepted after the end. -/
theorem pushed_not_mem_later
    (hpast : ∀ later earlier, trace = later ++ earlier → Past expected earlier)
    {later earlier : List (Event B E)} (heq : trace = later ++ earlier) (hended : Ended expected earlier)
    (batch : B) : Event.pushed batch true ∉ later := by
  intro hmem
  obtain ⟨after, before, rfl⟩ := List.append_of_mem hmem
  rw [List.append_assoc, List.cons_append] at heq
  have hok := (hpast after _ heq).ok _ _ rfl
  exact (hok.mp rfl) (hended.append _)

theorem acceptedBatches_append {later earlier : List (Event B E)}
    (h : ∀ batch, Event.pushed batch true ∉ later) :
    acceptedBatches (later ++ earlier) = acceptedBatches earlier := by
  have hnil : acceptedBatches later = [] := by
    unfold acceptedBatches
    rw [List.filterMap_eq_nil_iff]
    intro e he
    split
    · exact absurd he (h _)
    · rfl
  unfold acceptedBatches at hnil ⊢
  rw [List.filterMap_append, hnil, List.nil_append]

/-- What was pulled out of a drained stream stays all that was accepted. -/
theorem pulledBatches_perm_later
    (hpast : ∀ later earlier, trace = later ++ earlier → Past expected earlier)
    {later mid earlier : List (Event B E)} (heq : trace = later ++ (mid ++ earlier))
    (hended : Ended expected earlier)
    (hperm : (pulledBatches earlier).Perm (acceptedBatches earlier)) :
    (pulledBatches (mid ++ earlier)).Perm (acceptedBatches (mid ++ earlier)) := by
  have hpushed : ∀ batch, Event.pushed batch true ∉ mid := by
    intro batch hmem
    have hcut : trace = (later ++ mid) ++ earlier := by rw [heq, List.append_assoc]
    refine pushed_not_mem_later hpast hcut hended batch ?_
    exact List.mem_append_right _ hmem
  obtain ⟨repo, hrepo⟩ := (hpast later _ heq).repo
  have hlength := hrepo.length_eq
  have hmid : (pulledBatches (mid ++ earlier)).length =
      (pulledBatches mid).length + (pulledBatches earlier).length := by
    unfold pulledBatches
    rw [List.filterMap_append, List.length_append]
  rw [List.length_append, acceptedBatches_append hpushed, hmid, hperm.length_eq] at hlength
  obtain rfl : repo = [] := List.eq_nil_of_length_eq_zero (by omega)
  rwa [List.append_nil] at hrepo

/-- **The contract of a stream** holds on every run, for any number of senders and consumers. -/
theorem trace_contract {s : Stream B E} {acts : List (Act B E)}
    (h : run step (create expected) acts = some s) :
    (s.terminal = true ↔ Ended expected s.trace) ∧ Contract expected s.trace := by
  obtain ⟨hinv, hpast⟩ := run_past h
  refine ⟨hinv.terminal, ?_, ?_, ?_, ?_⟩
  · intro later batch ok earlier heq
    exact (hpast later _ heq).ok _ _ rfl
  · exact (List.sublist_append_left _ _).subperm.trans hinv.repo.subperm
  · intro hclean later earlier heq
    obtain ⟨hended, -, hperm⟩ := ((hpast later _ heq).ok _ _ rfl).mp rfl
    have hended' : Ended expected (.classified .endOfStream :: earlier) := hended.append [_]
    refine ⟨hperm, hended, fun a ha => ?_, fun batch => pushed_not_mem_later hpast heq hended' batch⟩
    obtain ⟨after, before, rfl⟩ := List.append_of_mem ha
    rw [List.append_assoc, List.cons_append] at heq
    have hok := (hpast after _ heq).ok _ _ rfl
    have hnone : firstError (before ++ Event.classified .endOfStream :: earlier) = none := by
      rw [← Option.not_isSome_iff_eq_none, firstError_isSome]
      rintro ⟨error, hmem⟩
      refine hclean error ?_
      rw [heq]
      exact List.mem_append_right _ (List.mem_cons_of_mem _ hmem)
    refine hok.mpr ⟨hended'.append _, hnone, ?_⟩
    have hcut : s.trace = (after ++ [Event.classified a]) ++
        (before ++ Event.classified .endOfStream :: earlier) := by
      rw [heq]
      simp
    exact pulledBatches_perm_later hpast hcut hended' hperm
  · intro later error earlier heq hfirst
    have hfirstError : firstError (.failed error :: earlier) = some error := by
      have hnone : firstError earlier = none := by
        rw [← Option.not_isSome_iff_eq_none, firstError_isSome]
        rintro ⟨e, hmem⟩
        exact hfirst e hmem
      rw [firstError, hnone]
      rfl
    -- every event after the failure sees its error
    have hlater : ∀ e ∈ later, ∃ older, firstError older = some error ∧ e.Ok expected older := by
      intro e he
      obtain ⟨after, before, rfl⟩ := List.append_of_mem he
      rw [List.append_assoc, List.cons_append] at heq
      exact ⟨_, firstError_append hfirstError, (hpast after _ heq).ok _ _ rfl⟩
    have hchecked : ∀ c, Event.checked c ∉ later := by
      intro c hmem
      obtain ⟨older, herror, hok⟩ := hlater _ hmem
      rw [show firstError older = none from hok] at herror
      cases herror
    refine ⟨hchecked, fun c e hmem => ?_, fun c => ?_, fun hmem => ?_, fun hmem => ?_⟩
    · obtain ⟨older, herror, hok⟩ := hlater _ hmem
      rw [show firstError older = some e from hok] at herror
      exact Option.some.inj herror
    · have hstarted : started c s.trace = started c earlier := by
        rw [heq]
        unfold started
        rw [List.countP_append, List.countP_cons_of_neg (by simp), Nat.add_eq_right,
          List.countP_eq_zero]
        intro e he
        cases e with
        | checked c' => exact absurd he (hchecked c')
        | _ => simp
      rw [← hstarted]
      exact (hpast [] _ rfl).popping c
    · obtain ⟨older, herror, hok⟩ := hlater _ hmem
      rw [(hok.mp rfl).2.1] at herror
      cases herror
    · obtain ⟨older, herror, hok⟩ := hlater _ hmem
      rw [(hok.mp rfl).2.1] at herror
      cases herror

end Contract

/-- One sender, who closes after a batch that is then pulled. -/
theorem trace_contract_close :
    ∃ s : Stream ℕ ℕ, run step (create {0}) [.push 7, .tryPull 0, .close 0, .pop 0 0, .classify] =
      some s ∧ s.trace.head? = some (.classified .endOfStream) ∧ Contract {0} s.trace := by
  have hrun : run step (create {0} : Stream ℕ ℕ)
      [.push 7, .tryPull 0, .close 0, .pop 0 0, .classify] =
        some ⟨{0}, {0}, true, none, [], [], [.classified .endOfStream, .pulled 0 (some 7), .closed 0,
          .checked 0, .pushed 7 true]⟩ := by
    rfl
  exact ⟨_, hrun, rfl, (trace_contract hrun).2⟩

/-- A `try_pull` that looked at the error before `fail` returns a batch after it. -/
theorem tryPull_returns_after_fail :
    ∃ s : Stream ℕ ℕ, run step (create {0}) [.push 7, .tryPull 0, .fail (some 1), .pop 0 0] =
      some s ∧ s.trace = [.pulled 0 (some 7), .failed 1, .checked 0, .pushed 7 true] :=
  ⟨_, rfl, rfl⟩

end Sirius.Exec.BatchStream
