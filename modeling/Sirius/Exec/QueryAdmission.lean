import Sirius.Common.Run

/-!
# Query admission

Model of `src/exec/query_admission.hpp`. Every action is one critical section of the
monitor's mutex: a call of `acquire` queues a waiter and looks at it once; a waiter
that is not ready looks again after any wait, and may be cancelled there; a permit is
reset; the admission is closed, or configured while it is idle. The permits that are
held are part of the state, so that the counters can be compared with them. The time
stamps are left out.

* `Admission.Inv`: the counters count permits and waiters, maintenance is exclusive,
  the limit holds, and the waiters are in ticket order.
* `admission_safe`: this holds in every reachable state, and who is admitted next.
-/

namespace Sirius.Exec

open Sirius.Common

/-! ## The monitor -/

/-- `query_admission::access`. -/
inductive Access where
  | query
  | planning
  | writer
  | maintenance
  deriving DecidableEq, Repr

/-- `query_admission::waiter`. -/
structure Waiter where
  kind : Access
  ticket : ℕ
  writerContinuation : Bool
  deriving DecidableEq, Repr

/-- A `permit` that has not been reset. -/
structure Permit where
  kind : Access
  ticket : ℕ
  deriving DecidableEq, Repr

/-- `query_admission::counts`. -/
structure Counts where
  queuedQueries : ℕ := 0
  activeQueries : ℕ := 0
  planners : ℕ := 0
  writers : ℕ := 0
  maintenanceWaiters : ℕ := 0
  maintenanceActive : Bool := false
  closing : Bool := false
  completedQueries : ℕ := 0
  deriving DecidableEq, Repr

/-- `query_admission::state`, and the permits that are held. -/
structure Admission where
  waiting : List Waiter := []
  current : Counts := {}
  limit : ℕ := 1
  nextTicket : ℕ := 1
  held : List Permit := []
  deriving DecidableEq, Repr

/-- `max_query_id` (`query_id.hpp`, line 65). -/
def maxQueryId : ℕ := 0x7fffffff

namespace Admission

/-- The waiters queued before a ticket. -/
def before (s : Admission) (ticket : ℕ) : List Waiter :=
  s.waiting.takeWhile fun w => w.ticket ≠ ticket

/-- An ordinary waiter is not held back by waiting maintenance (line 165). -/
def unblocked (s : Admission) (w : Waiter) : Bool :=
  s.current.maintenanceWaiters = 0 || w.writerContinuation

/-- `ready` (lines 156–178). -/
def ready (s : Admission) (w : Waiter) : Bool :=
  !s.current.maintenanceActive &&
    match w.kind with
    | .maintenance =>
      s.current.activeQueries = 0 && s.current.planners = 0 && s.current.writers = 0 &&
        (s.before w.ticket).all fun v => v.kind ≠ .maintenance
    | .query =>
      s.unblocked w && s.current.activeQueries < s.limit &&
        (s.before w.ticket).all fun v => !(v.kind = .query && s.unblocked v)
    | .planning => s.unblocked w
    | .writer => s.unblocked w

/-- `remove` (lines 151–155). -/
def remove (s : Admission) (w : Waiter) : Admission :=
  { s with
    waiting := s.waiting.eraseP fun v => v.ticket = w.ticket
    current :=
      { s.current with
        queuedQueries := s.current.queuedQueries - (if w.kind = .query then 1 else 0)
        maintenanceWaiters :=
          s.current.maintenanceWaiters - (if w.kind = .maintenance then 1 else 0) } }

/-- The counters of an admission (lines 187–195). -/
def Counts.enter (c : Counts) : Access → Counts
  | .query => { c with activeQueries := c.activeQueries + 1 }
  | .planning => { c with planners := c.planners + 1 }
  | .writer => { c with writers := c.writers + 1 }
  | .maintenance => { c with maintenanceActive := true }

/-- A ready waiter becomes a permit (lines 185–198). -/
def admitWaiter (s : Admission) (w : Waiter) : Admission :=
  let s' := s.remove w
  { s' with
    current := Counts.enter s'.current w.kind
    held := ⟨w.kind, w.ticket⟩ :: s'.held }

/-- One pass of the loop of `acquire` (lines 157–184): a closed admission throws. -/
def look (s : Admission) (w : Waiter) : Admission :=
  if s.current.closing then s.remove w
  else if s.ready w then s.admitWaiter w
  else s

/-- The waiter is queued (lines 143–150). -/
def enqueue (s : Admission) (kind : Access) (continuation : Bool) : Admission :=
  { s with
    waiting := s.waiting ++ [⟨kind, s.nextTicket, continuation⟩]
    nextTicket := s.nextTicket + 1
    current :=
      { s.current with
        queuedQueries := s.current.queuedQueries + (if kind = .query then 1 else 0)
        maintenanceWaiters :=
          s.current.maintenanceWaiters + (if kind = .maintenance then 1 else 0) } }

/-- `acquire` throws before it queues (lines 136–142). `writer` is the ticket of the
    permit that is passed as a writer continuation. -/
def rejects (s : Admission) (kind : Access) (writer : Option ℕ) : Bool :=
  (match writer with
    | none => false
    | some t => !(s.held.any fun p => p.ticket = t && p.kind = .writer) ||
        (kind ≠ .query && kind ≠ .planning)) ||
    s.current.closing || s.nextTicket > maxQueryId

/-- The first critical section of `acquire`. -/
def acquire (s : Admission) (kind : Access) (writer : Option ℕ) : Admission :=
  if s.rejects kind writer then s
  else (s.enqueue kind writer.isSome).look ⟨kind, s.nextTicket, writer.isSome⟩

/-- The counters of `permit::reset` (lines 88–98). -/
def Counts.leave (c : Counts) : Access → Counts
  | .query =>
    { c with activeQueries := c.activeQueries - 1, completedQueries := c.completedQueries + 1 }
  | .planning => { c with planners := c.planners - 1 }
  | .writer => { c with writers := c.writers - 1 }
  | .maintenance => { c with maintenanceActive := false }

/-- `permit::reset`. -/
def reset (s : Admission) (p : Permit) : Admission :=
  { s with
    current := Counts.leave s.current p.kind
    held := s.held.erase p }

/-- `configure`: throws while the admission is in use. -/
def configure (s : Admission) (limit : ℕ) : Admission :=
  if limit = 0 ∨ s.current.activeQueries ≠ 0 ∨ s.current.planners ≠ 0 ∨ s.current.writers ≠ 0 ∨
      s.current.maintenanceActive = true ∨ s.waiting ≠ [] then s
  else { s with limit := limit }

/-- The critical sections. -/
inductive Action where
  | acquire (kind : Access) (writer : Option ℕ)
  | look (w : Waiter)
  | cancel (w : Waiter)
  | reset (p : Permit)
  | close
  | configure (limit : ℕ)
  deriving DecidableEq, Repr

/-- One action. A waiter looks again, or is cancelled, while it is queued; a permit is
    reset while it is held. -/
def step (s : Admission) : Action → Option Admission
  | .acquire kind writer => some (s.acquire kind writer)
  | .look w => if w ∈ s.waiting then some (s.look w) else none
  | .cancel w => if w ∈ s.waiting then some (s.remove w) else none
  | .reset p => if p ∈ s.held then some (s.reset p) else none
  | .close => some { s with current := { s.current with closing := true } }
  | .configure limit => some (s.configure limit)

/-! ## The invariant -/

/-- The waiters of a kind. -/
def waitingOf (s : Admission) (kind : Access) : ℕ := s.waiting.countP fun w => w.kind = kind

/-- The permits of a kind that are held. -/
def heldOf (s : Admission) (kind : Access) : ℕ := s.held.countP fun p => p.kind = kind

/-- The counters count the waiters and the permits; maintenance is exclusive; the
    limit is positive and holds; the waiters are in ticket order. -/
structure Inv (s : Admission) : Prop where
  queued : s.current.queuedQueries = s.waitingOf .query
  maintenanceWaiters : s.current.maintenanceWaiters = s.waitingOf .maintenance
  active : s.current.activeQueries = s.heldOf .query
  planners : s.current.planners = s.heldOf .planning
  writers : s.current.writers = s.heldOf .writer
  maintenance : (if s.current.maintenanceActive then 1 else 0) = s.heldOf .maintenance
  exclusive : s.current.maintenanceActive = true → s.held.length = 1
  limit_pos : 0 < s.limit
  limit : s.current.activeQueries ≤ s.limit
  ordered : s.waiting.Pairwise fun w v => w.ticket < v.ticket
  issued : ∀ w ∈ s.waiting, w.ticket < s.nextTicket

theorem inv_init : Inv {} :=
  ⟨rfl, rfl, rfl, rfl, rfl, rfl, by simp, by decide, by decide, List.Pairwise.nil, by simp⟩

variable {s s' : Admission} {w : Waiter} {p : Permit}

/-- A queued waiter is the first with its ticket. -/
theorem Inv.split (h : s.Inv) (hw : w ∈ s.waiting) :
    ∃ earlier later, s.waiting = earlier ++ w :: later ∧ s.before w.ticket = earlier ∧
      (s.remove w).waiting = earlier ++ later ∧ (∀ v ∈ earlier, v.ticket < w.ticket) ∧
      ∀ v ∈ later, w.ticket < v.ticket := by
  obtain ⟨earlier, later, hsplit⟩ := List.append_of_mem hw
  have hordered := h.ordered
  rw [hsplit, List.pairwise_append] at hordered
  obtain ⟨-, hlater, hearlier⟩ := hordered
  have hlow : ∀ v ∈ earlier, v.ticket < w.ticket := fun v hv => hearlier v hv w (by simp)
  refine ⟨earlier, later, hsplit, ?_, ?_, hlow, (List.pairwise_cons.mp hlater).1⟩
  · unfold before
    rw [hsplit, List.takeWhile_append_of_pos, List.takeWhile_cons_of_neg (by simp),
      List.append_nil]
    intro v hv
    simpa using (hlow v hv).ne
  · unfold remove
    dsimp only
    rw [hsplit, List.eraseP_append_right, List.eraseP_cons_of_pos (by simp)]
    intro v hv
    simpa using (hlow v hv).ne

theorem Inv.waitingOf_remove (h : s.Inv) (hw : w ∈ s.waiting) (kind : Access) :
    s.waitingOf kind = (s.remove w).waitingOf kind + if w.kind = kind then 1 else 0 := by
  obtain ⟨earlier, later, hsplit, -, hremove, -⟩ := h.split hw
  unfold waitingOf
  rw [hremove, hsplit, List.countP_append, List.countP_append, List.countP_cons]
  simp only [decide_eq_true_eq]
  omega

/-- A waiter leaves the queue. -/
theorem Inv.remove (h : s.Inv) (hw : w ∈ s.waiting) : (s.remove w).Inv := by
  have hquery := h.waitingOf_remove hw .query
  have hmaintenance := h.waitingOf_remove hw .maintenance
  obtain ⟨earlier, later, hsplit, -, hremove, hlow, hhigh⟩ := h.split hw
  refine ⟨?_, ?_, h.active, h.planners, h.writers, h.maintenance, h.exclusive, h.limit_pos,
    h.limit, ?_, ?_⟩
  · have := h.queued
    unfold Admission.remove at *
    dsimp only at *
    omega
  · have := h.maintenanceWaiters
    unfold Admission.remove at *
    dsimp only at *
    omega
  · have hordered := h.ordered
    rw [hsplit, List.pairwise_append] at hordered
    rw [hremove, List.pairwise_append]
    exact ⟨hordered.1, (List.pairwise_cons.mp hordered.2.1).2, fun v hv u hu =>
      hordered.2.2 v hv u (by simp [hu])⟩
  · intro v hv
    refine h.issued v ?_
    rw [hremove] at hv
    rw [hsplit]
    simp only [List.mem_append, List.mem_cons] at hv ⊢
    tauto

/-- Every permit is of one of the kinds. -/
theorem length_held (s : Admission) : s.held.length =
    s.heldOf .query + s.heldOf .planning + s.heldOf .writer + s.heldOf .maintenance := by
  unfold heldOf
  induction s.held with
  | nil => rfl
  | cons p rest ih =>
    simp only [List.length_cons, List.countP_cons, decide_eq_true_eq]
    rw [ih]
    cases p.kind <;> simp <;> omega

/-- No permit is held where the counters of permits are zero. -/
theorem Inv.held_eq_nil (h : s.Inv) (hactive : s.current.activeQueries = 0)
    (hplanners : s.current.planners = 0) (hwriters : s.current.writers = 0)
    (hmaintenance : s.current.maintenanceActive = false) : s.held = [] := by
  have hlength := s.length_held
  have := h.maintenance
  rw [hmaintenance, if_neg (by decide)] at this
  rw [← h.active, ← h.planners, ← h.writers, ← this, hactive, hplanners, hwriters] at hlength
  exact List.length_eq_zero_iff.mp hlength

theorem ready_eq_true : s.ready w = true ↔ s.current.maintenanceActive = false ∧
    match w.kind with
    | .maintenance =>
      (s.current.activeQueries = 0 ∧ s.current.planners = 0 ∧ s.current.writers = 0) ∧
        ∀ v ∈ s.before w.ticket, v.kind ≠ .maintenance
    | .query =>
      (s.unblocked w = true ∧ s.current.activeQueries < s.limit) ∧
        ∀ v ∈ s.before w.ticket, v.kind = .query → s.unblocked v = false
    | .planning => s.unblocked w = true
    | .writer => s.unblocked w = true := by
  unfold ready
  rw [Bool.and_eq_true, Bool.not_eq_true']
  refine and_congr_right fun _ => ?_
  cases w.kind with
  | query => simp [and_assoc, imp_iff_not_or]
  | planning => rfl
  | writer => rfl
  | maintenance => simp [and_assoc]

/-- A ready waiter becomes a permit. -/
theorem Inv.admitWaiter (h : s.Inv) (hw : w ∈ s.waiting) (hready : s.ready w = true) :
    (s.admitWaiter w).Inv := by
  have hremoved := h.remove hw
  obtain ⟨hnone, hkind⟩ := ready_eq_true.mp hready
  have hquery := hremoved.active
  have hplanning := hremoved.planners
  have hwriter := hremoved.writers
  have hmaintenance := hremoved.maintenance
  have hcurrent : (s.remove w).current.maintenanceActive = false := hnone
  rw [hcurrent, if_neg (by decide)] at hmaintenance
  refine ⟨?_, ?_, ?_, ?_, ?_, ?_, ?_, h.limit_pos, ?_, hremoved.ordered, hremoved.issued⟩
  · have := hremoved.queued
    unfold Admission.admitWaiter waitingOf at *
    cases hk : w.kind <;> exact this
  · have := hremoved.maintenanceWaiters
    unfold Admission.admitWaiter waitingOf at *
    cases hk : w.kind <;> exact this
  · unfold Admission.admitWaiter heldOf at *
    cases hk : w.kind <;> simp [Counts.enter, hquery]
  · unfold Admission.admitWaiter heldOf at *
    cases hk : w.kind <;> simp [Counts.enter, hplanning]
  · unfold Admission.admitWaiter heldOf at *
    cases hk : w.kind <;> simp [Counts.enter, hwriter]
  · unfold Admission.admitWaiter heldOf at *
    cases hk : w.kind <;> simp [Counts.enter, hcurrent, ← hmaintenance]
  · intro hactive
    cases hk : w.kind with
    | maintenance =>
      rw [hk] at hkind
      obtain ⟨⟨hq, hp, hw'⟩, -⟩ := hkind
      have hheld : (s.remove w).held = [] := hremoved.held_eq_nil hq hp hw' hcurrent
      unfold Admission.admitWaiter
      simp [hheld]
    | query | planning | writer =>
      simp [Admission.admitWaiter, hk, Counts.enter, hcurrent] at hactive
  · have hlimit := hremoved.limit
    cases hk : w.kind with
    | query =>
      rw [hk] at hkind
      have hlt : (s.remove w).current.activeQueries < (s.remove w).limit := hkind.1.2
      unfold Admission.admitWaiter
      rw [hk]
      exact hlt
    | planning | writer | maintenance =>
      simpa [Admission.admitWaiter, hk, Counts.enter] using hlimit

theorem Inv.look (h : s.Inv) (hw : w ∈ s.waiting) : (s.look w).Inv := by
  unfold Admission.look
  split_ifs with hclosing hready
  · exact h.remove hw
  · exact h.admitWaiter hw hready
  · exact h

theorem Inv.enqueue (h : s.Inv) (kind : Access) (continuation : Bool) :
    (s.enqueue kind continuation).Inv := by
  refine ⟨?_, ?_, h.active, h.planners, h.writers, h.maintenance, h.exclusive, h.limit_pos,
    h.limit, ?_, ?_⟩
  · have := h.queued
    unfold Admission.enqueue waitingOf at *
    simp only [List.countP_append, List.countP_singleton, decide_eq_true_eq]
    omega
  · have := h.maintenanceWaiters
    unfold Admission.enqueue waitingOf at *
    simp only [List.countP_append, List.countP_singleton, decide_eq_true_eq]
    omega
  · unfold Admission.enqueue
    dsimp only
    rw [List.pairwise_append]
    refine ⟨h.ordered, List.pairwise_singleton _ _, fun v hv u hu => ?_⟩
    rw [List.mem_singleton.mp hu]
    exact h.issued v hv
  · intro v hv
    unfold Admission.enqueue at hv ⊢
    dsimp only at hv ⊢
    rcases List.mem_append.mp hv with hv | hv
    · exact Nat.lt_succ_of_lt (h.issued v hv)
    · rw [List.mem_singleton.mp hv]
      exact Nat.lt_succ_self _

theorem Inv.acquire (h : s.Inv) (kind : Access) (writer : Option ℕ) :
    (s.acquire kind writer).Inv := by
  unfold Admission.acquire
  split_ifs
  · exact h
  · exact (h.enqueue kind writer.isSome).look (by simp [Admission.enqueue])

/-- Beside another permit there is no maintenance permit. -/
theorem Inv.not_active_of_mem (h : s.Inv) (hp : p ∈ s.held) (hk : p.kind ≠ .maintenance) :
    s.current.maintenanceActive ≠ true := by
  intro hactive
  have hone := h.exclusive hactive
  obtain ⟨q, hq⟩ := List.length_eq_one_iff.mp hone
  have hmaintenance := h.maintenance
  rw [hq, List.mem_singleton] at hp
  rw [if_pos hactive, heldOf, hq, List.countP_singleton] at hmaintenance
  simp [← hp, hk] at hmaintenance

theorem heldOf_reset (hp : p ∈ s.held) (kind : Access) :
    s.heldOf kind = (s.reset p).heldOf kind + if p.kind = kind then 1 else 0 := by
  unfold heldOf Admission.reset
  dsimp only
  rw [(List.perm_cons_erase hp).countP_eq, List.countP_cons]
  simp only [decide_eq_true_eq]

/-- A permit is reset. -/
theorem Inv.reset (h : s.Inv) (hp : p ∈ s.held) : (s.reset p).Inv := by
  have hquery := heldOf_reset hp .query
  have hplanning := heldOf_reset hp .planning
  have hwriter := heldOf_reset hp .writer
  have hmaintenance := heldOf_reset hp .maintenance
  rw [← h.active] at hquery
  rw [← h.planners] at hplanning
  rw [← h.writers] at hwriter
  rw [← h.maintenance] at hmaintenance
  have hlimit := h.limit
  have hwaiting : ∀ kind, (s.reset p).waitingOf kind = s.waitingOf kind := fun _ => rfl
  have hqueued := h.queued
  have hwaiters := h.maintenanceWaiters
  refine ⟨?_, ?_, ?_, ?_, ?_, ?_, ?_, h.limit_pos, ?_, h.ordered, h.issued⟩
  · rw [hwaiting, ← hqueued]
    unfold Admission.reset
    cases p.kind <;> rfl
  · rw [hwaiting, ← hwaiters]
    unfold Admission.reset
    cases p.kind <;> rfl
  · cases hk : p.kind <;> simp [Admission.reset, hk, Counts.leave] at hquery ⊢ <;> omega
  · cases hk : p.kind <;> simp [Admission.reset, hk, Counts.leave] at hplanning ⊢ <;> omega
  · cases hk : p.kind <;> simp [Admission.reset, hk, Counts.leave] at hwriter ⊢ <;> omega
  · cases hk : p.kind with
    | maintenance =>
      simp only [Admission.reset, hk, Counts.leave] at hmaintenance ⊢
      split_ifs at hmaintenance
      simp_all
    | query | planning | writer => simpa [Admission.reset, hk, Counts.leave] using hmaintenance
  · intro hactive
    cases hk : p.kind with
    | maintenance => simp [Admission.reset, hk, Counts.leave] at hactive
    | query | planning | writer =>
      simp only [Admission.reset, hk, Counts.leave] at hactive
      exact absurd hactive (h.not_active_of_mem hp (by simp [hk]))
  · cases hk : p.kind <;> simp [Admission.reset, hk, Counts.leave] <;> omega

theorem Inv.configure (h : s.Inv) (limit : ℕ) : (s.configure limit).Inv := by
  unfold Admission.configure
  split_ifs with huse
  · exact h
  · push Not at huse
    obtain ⟨hlimit, hactive, -⟩ := huse
    exact ⟨h.queued, h.maintenanceWaiters, h.active, h.planners, h.writers, h.maintenance,
      h.exclusive, Nat.pos_of_ne_zero hlimit, hactive ▸ Nat.zero_le _, h.ordered, h.issued⟩

/-- Every action keeps the invariant. -/
theorem Inv.step (h : s.Inv) {a : Action} (hstep : s.step a = some s') : s'.Inv := by
  cases a with
  | acquire kind writer =>
    cases hstep
    exact h.acquire kind writer
  | look w =>
    simp only [Admission.step, Option.ite_none_right_eq_some, Option.some.injEq] at hstep
    obtain ⟨hw, rfl⟩ := hstep
    exact h.look hw
  | cancel w =>
    simp only [Admission.step, Option.ite_none_right_eq_some, Option.some.injEq] at hstep
    obtain ⟨hw, rfl⟩ := hstep
    exact h.remove hw
  | reset p =>
    simp only [Admission.step, Option.ite_none_right_eq_some, Option.some.injEq] at hstep
    obtain ⟨hp, rfl⟩ := hstep
    exact h.reset hp
  | close =>
    cases hstep
    exact ⟨h.queued, h.maintenanceWaiters, h.active, h.planners, h.writers, h.maintenance,
      h.exclusive, h.limit_pos, h.limit, h.ordered, h.issued⟩
  | configure limit =>
    cases hstep
    exact h.configure limit

theorem inv_of_run {acts : List Action} (h : run Admission.step {} acts = some s) : s.Inv :=
  run_invariant (fun _ _ _ hinv hstep => hinv.step hstep) inv_init h

/-! ## Ticket order -/

/-- A waiter that becomes a permit was ready. -/
theorem mem_held_look (hp : p ∈ (s.look w).held) (hnew : p ∉ s.held) :
    p = ⟨w.kind, w.ticket⟩ ∧ s.ready w = true := by
  unfold Admission.look at hp
  split_ifs at hp with hclosing hready
  · exact absurd hp hnew
  · have hcons : p = ⟨w.kind, w.ticket⟩ ∨ p ∈ s.held := List.mem_cons.mp hp
    exact ⟨hcons.resolve_right hnew, hready⟩
  · exact absurd hp hnew

/-- A ready query has no query before it, unless maintenance waits. -/
theorem Inv.first_query (h : s.Inv) (hw : w ∈ s.waiting) (hk : w.kind = .query)
    (hready : s.ready w = true) (hfree : ∀ v ∈ s.waiting, v.kind ≠ .maintenance) :
    ∀ v ∈ s.waiting, v.kind = .query → w.ticket ≤ v.ticket := by
  intro v hv hquery
  obtain ⟨earlier, later, hsplit, hbefore, -, -, hhigh⟩ := h.split hw
  have hzero : s.current.maintenanceWaiters = 0 := by
    rw [h.maintenanceWaiters, waitingOf, List.countP_eq_zero]
    intro u hu
    simpa using hfree u hu
  obtain ⟨-, hkind⟩ := ready_eq_true.mp hready
  rw [hk] at hkind
  rw [hsplit] at hv
  rcases List.mem_append.mp hv with hv | hv
  · have hblocked := hkind.2 v (hbefore ▸ hv) hquery
    simp [unblocked, hzero] at hblocked
  · rcases List.mem_cons.mp hv with rfl | hv
    · exact le_rfl
    · exact (hhigh v hv).le

/-- A query that a step admits while no maintenance waits is the first of the queries. -/
theorem Inv.admitted_first (h : s.Inv) {a : Action} (hstep : s.step a = some s')
    (hp : p ∈ s'.held) (hnew : p ∉ s.held) (hk : p.kind = .query)
    (hfree : ∀ v ∈ s.waiting, v.kind ≠ .maintenance) :
    ∀ v ∈ s.waiting, v.kind = .query → p.ticket ≤ v.ticket := by
  cases a with
  | acquire kind writer =>
    cases hstep
    unfold Admission.acquire at hp
    split_ifs at hp with hreject
    · exact absurd hp hnew
    · obtain ⟨rfl, hready⟩ := mem_held_look hp hnew
      have hmem : (⟨kind, s.nextTicket, writer.isSome⟩ : Waiter) ∈
          (s.enqueue kind writer.isSome).waiting := by simp [Admission.enqueue]
      have hkind : kind = .query := hk
      intro v hv
      refine (h.enqueue kind writer.isSome).first_query hmem hkind hready ?_ v ?_
      · intro u hu
        rcases List.mem_append.mp hu with hu | hu
        · exact hfree u hu
        · rw [List.mem_singleton.mp hu, hkind]
          simp
      · exact List.mem_append_left _ hv
  | look w =>
    simp only [Admission.step, Option.ite_none_right_eq_some, Option.some.injEq] at hstep
    obtain ⟨hw, rfl⟩ := hstep
    obtain ⟨rfl, hready⟩ := mem_held_look hp hnew
    exact h.first_query hw hk hready hfree
  | cancel w =>
    simp only [Admission.step, Option.ite_none_right_eq_some, Option.some.injEq] at hstep
    obtain ⟨hw, rfl⟩ := hstep
    exact absurd hp hnew
  | reset q =>
    simp only [Admission.step, Option.ite_none_right_eq_some, Option.some.injEq] at hstep
    obtain ⟨hq, rfl⟩ := hstep
    exact absurd (List.mem_of_mem_erase hp) hnew
  | close =>
    cases hstep
    exact absurd hp hnew
  | configure limit =>
    cases hstep
    unfold Admission.configure at hp
    split_ifs at hp
    · exact absurd hp hnew
    · exact absurd hp hnew

/-! ## No stuck queue -/

/-- The first waiter that satisfies a condition. -/
theorem Inv.exists_first (h : s.Inv) {P : Waiter → Prop} (hex : ∃ w ∈ s.waiting, P w) :
    ∃ w ∈ s.waiting, P w ∧ ∀ v ∈ s.before w.ticket, ¬P v := by
  classical
  obtain ⟨w, hfind⟩ : ∃ w, s.waiting.find? (fun w => P w) = some w := by
    rw [← Option.isSome_iff_exists, List.find?_isSome]
    obtain ⟨w, hw, hP⟩ := hex
    exact ⟨w, hw, by simpa using hP⟩
  obtain ⟨hP, earlier, later, hsplit, hearlier⟩ := List.find?_eq_some_iff_append.mp hfind
  have hw : w ∈ s.waiting := by
    rw [hsplit]
    simp
  refine ⟨w, hw, by simpa using hP, fun v hv => ?_⟩
  obtain ⟨earlier', later', hsplit', hbefore, -, hlow, -⟩ := h.split hw
  rw [hbefore] at hv
  have hmem : v ∈ s.waiting := by
    rw [hsplit']
    simp [hv]
  rw [hsplit] at hmem
  rcases List.mem_append.mp hmem with hmem | hmem
  · simpa using hearlier v hmem
  · have hordered := h.ordered
    rw [hsplit, List.pairwise_append] at hordered
    have hlt := hlow v hv
    rcases List.mem_cons.mp hmem with rfl | hmem
    · exact absurd hlt (lt_irrefl _)
    · have := (List.pairwise_cons.mp hordered.2.1).1 v hmem
      omega

/-- Where no permit is held, a waiter is ready. -/
theorem Inv.exists_ready (h : s.Inv) (hheld : s.held = []) (hwaiting : s.waiting ≠ []) :
    ∃ w ∈ s.waiting, s.ready w = true := by
  have hzero : ∀ kind, s.heldOf kind = 0 := by
    intro kind
    rw [heldOf, hheld]
    rfl
  have hactive : s.current.activeQueries = 0 := h.active.trans (hzero _)
  have hplanners : s.current.planners = 0 := h.planners.trans (hzero _)
  have hwriters : s.current.writers = 0 := h.writers.trans (hzero _)
  have hnone : s.current.maintenanceActive = false := by
    by_contra hne
    have := h.maintenance
    rw [if_pos (by simpa using hne), hzero] at this
    cases this
  by_cases hmaintenance : ∃ w ∈ s.waiting, w.kind = .maintenance
  · obtain ⟨w, hw, hk, hfirst⟩ := h.exists_first hmaintenance
    refine ⟨w, hw, ready_eq_true.mpr ⟨hnone, ?_⟩⟩
    rw [hk]
    exact ⟨⟨hactive, hplanners, hwriters⟩, hfirst⟩
  · push Not at hmaintenance
    have hfree : s.current.maintenanceWaiters = 0 := by
      rw [h.maintenanceWaiters, waitingOf, List.countP_eq_zero]
      intro u hu
      simpa using hmaintenance u hu
    have hunblocked : ∀ v, s.unblocked v = true := by
      intro v
      simp [unblocked, hfree]
    by_cases hquery : ∃ w ∈ s.waiting, w.kind = .query
    · obtain ⟨w, hw, hk, hfirst⟩ := h.exists_first hquery
      refine ⟨w, hw, ready_eq_true.mpr ⟨hnone, ?_⟩⟩
      rw [hk]
      refine ⟨⟨hunblocked w, hactive ▸ h.limit_pos⟩, fun v hv hkv => ?_⟩
      exact absurd hkv (hfirst v hv)
    · push Not at hquery
      obtain ⟨w, hw⟩ := List.exists_mem_of_ne_nil _ hwaiting
      refine ⟨w, hw, ready_eq_true.mpr ⟨hnone, ?_⟩⟩
      cases hk : w.kind with
      | query => exact absurd hk (hquery w hw)
      | planning => exact hunblocked w
      | writer => exact hunblocked w
      | maintenance => exact absurd hk (hmaintenance w hw)

/-- **Admission is safe** in every reachable state: beside a maintenance permit no
    permit is held, at most `limit` query permits are held, and every counter is the
    number of permits or waiters it stands for. A step that admits a query while no
    maintenance waits admits the one with the smallest ticket, and where waiters are
    queued and no permit is held, one of them is ready. -/
theorem admission_safe {acts : List Action} {s : Admission}
    (h : run Admission.step {} acts = some s) :
    (∀ p ∈ s.held, p.kind = .maintenance → s.held = [p]) ∧
    s.heldOf .query ≤ s.limit ∧
    (s.current.queuedQueries = s.waitingOf .query ∧
      s.current.maintenanceWaiters = s.waitingOf .maintenance ∧
      s.current.activeQueries = s.heldOf .query ∧ s.current.planners = s.heldOf .planning ∧
      s.current.writers = s.heldOf .writer ∧
      (if s.current.maintenanceActive then 1 else 0) = s.heldOf .maintenance) ∧
    (∀ a s' p, s.step a = some s' → p ∈ s'.held → p ∉ s.held → p.kind = .query →
      (∀ v ∈ s.waiting, v.kind ≠ .maintenance) →
      ∀ v ∈ s.waiting, v.kind = .query → p.ticket ≤ v.ticket) ∧
    (s.waiting ≠ [] → s.held = [] → ∃ w ∈ s.waiting, s.ready w = true) := by
  have hinv := inv_of_run h
  refine ⟨fun p hp hk => ?_, hinv.active ▸ hinv.limit, ⟨hinv.queued, hinv.maintenanceWaiters,
    hinv.active, hinv.planners, hinv.writers, hinv.maintenance⟩, fun a s' p hstep hp hnew hk hfree =>
    hinv.admitted_first hstep hp hnew hk hfree, fun hwaiting hheld =>
    hinv.exists_ready hheld hwaiting⟩
  have hpos : 0 < s.heldOf .maintenance := List.countP_pos_iff.mpr ⟨p, hp, by simpa using hk⟩
  have hactive : s.current.maintenanceActive = true := by
    by_contra hne
    have := hinv.maintenance
    rw [if_neg hne] at this
    omega
  obtain ⟨q, hq⟩ := List.length_eq_one_iff.mp (hinv.exclusive hactive)
  rw [hq, List.mem_singleton] at hp
  rw [hq, hp]

/-- A writer lets its query in ahead of waiting maintenance, and another query waits. -/
def continuationRun : List Action :=
  [.acquire .writer none, .acquire .maintenance none, .acquire .query (some 1),
    .acquire .query none, .reset ⟨.query, 3⟩, .reset ⟨.writer, 1⟩]

theorem admission_safe_continuation :
    ∃ s, run Admission.step {} continuationRun = some s ∧ s.current.queuedQueries = 1 ∧
      s.waitingOf .query = 1 ∧ ∃ w ∈ s.waiting, s.ready w = true := by
  obtain ⟨s, h, hqueued, hwaiting, hheld⟩ : ∃ s, run Admission.step {} continuationRun = some s ∧
      s.current.queuedQueries = 1 ∧ s.waiting ≠ [] ∧ s.held = [] :=
    ⟨_, rfl, rfl, by decide, rfl⟩
  obtain ⟨-, -, ⟨hcount, -⟩, -, hready⟩ := admission_safe h
  exact ⟨s, h, hqueued, hcount ▸ hqueued, hready hwaiting hheld⟩

end Admission

end Sirius.Exec
