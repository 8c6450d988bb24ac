import Sirius.Exec.ScopedDispatcherRuns

/-!
# The contract of the scoped dispatcher

* `Stranded`: before a stop, pending tasks have a worker slot that will claim them.
* `Drain`: what is owed to a bound drain callback.
* `work`: what is left to do when nobody calls any more; every step before a stop lowers it.
* `dispatcher_contract`: the contract, over every run.
-/

namespace Sirius.Exec.ScopedDispatcher

open Sirius.Common

/-! ## Pending tasks -/

variable {a b : Phase}

/-- A queued task is queued because a slot is held, and a slot is not given back while a task is
    queued. -/
theorem Moves.pending {s s' : Shared} (h : Moves s a s' b) (ha : a.Sound s)
    (hstop : s.stop = true → s.stopBegun = true) (hbegun : s'.stopBegun = false)
    (hpending : s'.pending ≠ []) :
    (s.pending ≠ [] ∧ s.pool.length + a.slot ≤ s'.pool.length + b.slot) ∨
      (s.maxInflight ≤ s.inflight ∧ s.pool.length + a.slot ≤ s'.pool.length + b.slot) := by
  have hrunning : s'.stop = s.stop → s.stopBegun = s'.stopBegun → s.stop = false := by
    intro _ hb
    by_contra hne
    rw [← Bool.not_eq_true, ← hb, hstop (by simpa using hne)] at hbegun
    exact hbegun rfl
  cases h with
  | @release _ next hr =>
    obtain ⟨d, hd⟩ := releaseSlot_fst s next
    rw [hd] at hpending hbegun hrunning
    have hrun := hrunning rfl rfl
    cases hr with
    | claim y hr | check y hr => rcases hr with hr | hr <;> simp_all
    | drained max n failed hnil => exact absurd hnil hpending
    | limit n failed _ => exact absurd ha.1 (by simp [hrun])
    | failed => exact absurd ha (by simp [Phase.Sound, hrun])
  | claim t rest y _ hcons => exact .inl ⟨by simp [hcons], le_rfl⟩
  | pop max n t rest failed hcons => exact .inl ⟨by simp [hcons], le_rfl⟩
  | check y _ hne => exact .inl ⟨hne, by cases y <;> exact le_rfl⟩
  | refuse t ha => rcases ha with rfl | rfl <;> exact .inl ⟨hpending, le_rfl⟩
  | reserve t ha _ _ =>
    rcases ha with rfl | rfl <;> exact .inl ⟨hpending, Nat.le_add_right _ _⟩
  | queue t _ hfull => exact .inr ⟨hfull, le_rfl⟩
  | stopBegin max failed => exact absurd hbegun (by simp)
  | notify next => exact .inl ⟨hpending, le_rfl⟩
  | _ =>
    refine .inl ⟨hpending, ?_⟩
    simp only [Phase.slot, List.length_append, List.length_cons, List.length_nil, Bool.toNat_true]
    omega

/-- **Before a stop, no task is stranded.** -/
def Stranded (s : State) : Prop :=
  s.shared.stopBegun = false → s.shared.pending ≠ [] →
    1 ≤ s.shared.pool.length + total Phase.slot s.actors

variable {s : State}

theorem Flags.cleanup_eq_zero (h : Flags s) (hbegun : s.shared.stopBegun = false) :
    total Phase.cleanup s.actors = 0 := by
  have hstop : s.shared.stop = false := by
    by_contra hne
    exact absurd (h.begun (by simpa using hne)) (by simp [hbegun])
  refine total_eq_zero fun a ha => ?_
  have hsound := h.sound a ha
  clear ha
  induction a with
  | stopSet max failed => exact absurd hsound.1 (by simp [hbegun])
  | stopLoop max n failed => exact absurd hsound.1 (by simp [hstop])
  | discard t max n failed => exact absurd hsound.1 (by simp [hstop])
  | notify next ih => exact ih hsound.2
  | _ => rfl

theorem Stranded.step {s s' : State} (h : Stranded s) (hslots : Slots s) (hflags : Flags s)
    (hmax : 1 ≤ s.shared.maxInflight) (hs : Steps s s') : Stranded s' := by
  intro hbegun hpending
  cases hs with
  | call c =>
    have := h hbegun hpending
    simp only [total_append]
    omega
  | start j c hj =>
    have := h hbegun hpending
    have hphase : c.phase.slot = 1 := by cases c <;> rfl
    simp only [total_append, total_cons, hphase]
    omega
  | move i a b sh hi hmove =>
    have hset := total_set (w := Phase.slot) hi b
    have hle := weight_le_total (w := Phase.slot) (List.mem_of_getElem? hi)
    have hbegun₀ : s.shared.stopBegun = false := by
      by_contra hne
      exact absurd (hmove.le.stopBegun (by simpa using hne)) (by simpa using hbegun)
    dsimp only at hbegun hpending ⊢
    rcases hmove.pending (hflags.sound a (List.mem_of_getElem? hi)) hflags.begun hbegun hpending with
      ⟨hpending₀, hslot⟩ | ⟨hfull, hslot⟩
    · have := h hbegun₀ hpending₀
      omega
    · have := hslots.inflight
      have := hflags.cleanup_eq_zero hbegun₀
      omega

/-! ## The drain callback -/

/-- Threads that are about to call the callback. -/
def Phase.notifying : Phase → ℕ
  | .notify next => next.notifying + 1
  | _ => 0

/-- Threads that will look at the queue again to empty it. -/
def Phase.cleaner : Phase → ℕ
  | .stopBegin .. | .stopSet .. | .stopLoop .. | .discard .. => 1
  | .notify next => next.cleaner
  | _ => 0

/-- Threads that are about to set the stop flag. -/
def Phase.setting : Phase → ℕ
  | .stopSet .. => 1
  | .notify next => next.setting
  | _ => 0

theorem notifying_of_releases {s : Shared} {a next : Phase} (h : Releases s a next) :
    a.notifying = 0 ∧ next.notifying = 0 := by
  cases h with
  | drained max n failed _ => cases failed <;> exact ⟨rfl, rfl⟩
  | limit n failed _ => cases failed <;> exact ⟨rfl, rfl⟩
  | _ => exact ⟨rfl, rfl⟩

/-- The callback is bound, being called, or has been called. -/
theorem Moves.callback {s s' : Shared} (h : Moves s a s' b)
    (hbound : s.stop = false → s.stopDrained = false → s.bound = false) :
    s'.stopDrained.toNat + b.notifying + s'.notified + s.bound.toNat =
      s.stopDrained.toNat + a.notifying + s.notified + s'.bound.toNat := by
  cases h with
  | @release _ next hr =>
    obtain ⟨ha, hnext⟩ := notifying_of_releases hr
    rcases releaseSlot_cases s next with ⟨heq, -⟩ | ⟨⟨-, -, -, hdrained⟩, heq⟩ <;> rw [heq]
    · rw [ha, hnext]
    · simp only [Phase.notifying, ha, hnext, hdrained, Bool.toNat_true, Bool.toNat_false]
  | check y _ _ => cases y <;> rfl
  | refuse t ha => rcases ha with rfl | rfl <;> rfl
  | reserve t ha _ _ => rcases ha with rfl | rfl <;> rfl
  | bind hstop hunbound =>
    simp only [Phase.notifying, hunbound, hbound hstop hunbound, Bool.toNat_true, Bool.toNat_false]
    omega
  | notify next =>
    simp only [Phase.notifying]
    omega
  | _ => rfl

/-- Someone will empty the queue of a stopped dispatcher. -/
theorem Moves.cleaner {s s' : Shared} (h : Moves s a s' b) (ha : a.Sound s)
    (hstop : s'.stop = true) (hpending : s'.pending ≠ []) :
    (s.stop = true ∧ s.pending ≠ [] ∧ a.cleaner ≤ b.cleaner) ∨ 1 ≤ b.cleaner := by
  cases h with
  | @release _ next hr =>
    obtain ⟨d, hd⟩ := releaseSlot_fst s next
    rw [weight_releaseSlot (w := Phase.cleaner) (fun _ => rfl)]
    rw [hd] at hstop hpending
    cases hr with
    | drained max n failed hnil => exact absurd hnil hpending
    | limit n failed _ =>
      cases failed with
      | true => exact absurd (ha.2 rfl) (by simp)
      | false => exact .inr le_rfl
    | _ => exact .inl ⟨hstop, hpending, le_rfl⟩
  | claim t rest y hrun _ => exact absurd hstop (by simp [hrun])
  | check y hrun _ => exact absurd hstop (by simp [hrun])
  | refuse t ha => rcases ha with rfl | rfl <;> exact .inl ⟨hstop, hpending, le_rfl⟩
  | reserve t ha hrun _ => exact absurd hstop (by simp [hrun])
  | queue t hrun _ => exact absurd hstop (by simp [hrun])
  | bind hrun _ => exact absurd hstop (by simp [hrun])
  | unwind t => exact .inr le_rfl
  | stopBegin max failed => exact .inr le_rfl
  | stopSet max failed => exact .inr le_rfl
  | pop max n t rest failed _ => exact .inr le_rfl
  | discard max n t failed => exact .inr le_rfl
  | _ => exact .inl ⟨hstop, hpending, le_rfl⟩

/-- The last slot or cleanup after a stop takes the callback with it. -/
theorem Moves.owed {s s' : Shared} (h : Moves s a s' b) (hpos : a.slot + a.cleanup ≤ s.inflight)
    (howed : s.stop = true → s.stopDrained = true → s.pending = [] → 1 ≤ s.inflight)
    (hstop : s'.stop = true) (hdrained : s'.stopDrained = true) (hpending : s'.pending = []) :
    1 ≤ s'.inflight := by
  cases h with
  | @release _ next hr =>
    rcases releaseSlot_cases s next with ⟨heq, hnot⟩ | ⟨-, heq⟩ <;>
      rw [heq] at hstop hdrained hpending ⊢
    · dsimp only at hstop hdrained hpending ⊢
      by_contra hlt
      exact hnot ⟨by omega, hpending, hstop, hdrained⟩
    · exact absurd hdrained (by simp)
  | claim t rest y hrun _ => exact absurd hstop (by simp [hrun])
  | bind hrun _ => exact absurd hstop (by simp [hrun])
  | queue t hrun _ => exact absurd hstop (by simp [hrun])
  | reserve t ha _ _ => exact Nat.le_add_left _ _
  | stopBegin max failed => exact Nat.le_add_left _ _
  | stopSet _ _ | pop _ _ _ _ _ _ =>
    simp only [Phase.slot, Phase.cleanup] at hpos
    show 1 ≤ s.inflight
    omega
  | _ => exact howed hstop hdrained hpending

/-- A `request_stop` that has begun will set the flag. -/
theorem Moves.setting {s s' : Shared} (h : Moves s a s' b) (hbegun : s'.stopBegun = true)
    (hstop : s'.stop = false) :
    (s.stopBegun = true ∧ s.stop = false ∧ a.setting ≤ b.setting) ∨ 1 ≤ b.setting := by
  cases h with
  | @release _ next hr =>
    obtain ⟨d, hd⟩ := releaseSlot_fst s next
    rw [weight_releaseSlot (w := Phase.setting) (fun _ => rfl)]
    rw [hd] at hstop hbegun
    have hzero : a.setting = 0 := by cases hr <;> rfl
    exact .inl ⟨hbegun, hstop, by omega⟩
  | check y _ _ => cases y <;> exact .inl ⟨hbegun, hstop, le_rfl⟩
  | refuse _ ha | reserve _ ha _ _ => rcases ha with rfl | rfl <;> exact .inl ⟨hbegun, hstop, le_rfl⟩
  | stopBegin max failed => exact .inr le_rfl
  | stopSet max failed => exact absurd hstop (by simp)
  | _ => exact .inl ⟨hbegun, hstop, le_rfl⟩

/-- A thread is about to call the callback only when everything has drained. -/
theorem Moves.notifying {s s' : Shared} (h : Moves s a s' b) :
    b.notifying + s'.notified ≤ a.notifying + s.notified ∨
      (s'.inflight = 0 ∧ s'.pending = [] ∧ s'.stop = true) := by
  cases h with
  | @release _ next hr =>
    obtain ⟨ha, hnext⟩ := notifying_of_releases hr
    rcases releaseSlot_cases s next with ⟨heq, -⟩ | ⟨⟨hzero, hpending, hstop, -⟩, heq⟩ <;> rw [heq]
    · exact .inl (by rw [ha, hnext])
    · exact .inr ⟨hzero, hpending, hstop⟩
  | check y _ _ => cases y <;> exact .inl le_rfl
  | refuse _ ha | reserve _ ha _ _ => rcases ha with rfl | rfl <;> exact .inl le_rfl
  | notify next =>
    refine .inl ?_
    simp only [Phase.notifying]
    omega
  | _ => exact .inl le_rfl

/-- **What is owed to a bound callback.** -/
structure Drain (s : State) : Prop where
  callback : s.shared.stopDrained.toNat + total Phase.notifying s.actors + s.shared.notified =
    s.shared.bound.toNat
  cleaner : s.shared.stop = true → s.shared.pending ≠ [] → 1 ≤ total Phase.cleaner s.actors
  owed : s.shared.stop = true → s.shared.stopDrained = true → s.shared.pending = [] →
    1 ≤ s.shared.inflight
  setting : s.shared.stopBegun = true → s.shared.stop = false →
    1 ≤ total Phase.setting s.actors
  settled : 1 ≤ total Phase.notifying s.actors + s.shared.notified →
    s.settled = true ∧ s.shared.stop = true

theorem drain_phase (t : ℕ) (c : Call) :
    (c.phase t).notifying = 0 ∧ (c.phase t).setting = 0 := by
  cases c <;> exact ⟨rfl, rfl⟩

theorem Drain.step {s s' : State} (h : Drain s) (hslots : Slots s) (hflags : Flags s)
    (hs : Steps s s') (hslots' : Slots s') : Drain (observe s') := by
  obtain ⟨hcallback, hcleaner, howed, hsetting, hsettled⟩ := h
  have hkeep : ∀ {s : State}, s.settled = true ∧ s.shared.stop = true →
      (observe s).settled = true ∧ s.shared.stop = true := by
    intro s hs
    exact ⟨by simp [observe, hs.1], hs.2⟩
  cases hs with
  | call c =>
    obtain ⟨hnotify, hset⟩ := drain_phase s.nextTask c
    constructor
    · simpa [observe, hnotify] using hcallback
    · intro hstop hpending
      have := hcleaner hstop hpending
      simp only [observe, total_append]
      omega
    · exact howed
    · intro hbegun hstop
      have := hsetting hbegun hstop
      simp only [observe, total_append]
      omega
    · intro hnotified
      refine hkeep (hsettled ?_)
      simpa [observe, hnotify] using hnotified
  | start j c hj =>
    have hphase : c.phase.notifying = 0 ∧ c.phase.cleaner = 0 ∧ c.phase.setting = 0 := by
      cases c <;> exact ⟨rfl, rfl, rfl⟩
    constructor
    · simpa [observe, hphase.1] using hcallback
    · intro hstop hpending
      simpa [observe, hphase.2.1] using hcleaner hstop hpending
    · exact howed
    · intro hbegun hstop
      simpa [observe, hphase.2.2] using hsetting hbegun hstop
    · intro hnotified
      refine hkeep (hsettled ?_)
      simpa [observe, hphase.1] using hnotified
  | move i a b sh hi hmove =>
    have hset := fun w : Phase → ℕ => total_set (w := w) hi b
    have hmem := List.mem_of_getElem? hi
    have hle := fun w : Phase → ℕ => weight_le_total (w := w) hmem
    constructor
    · -- a callback can be bound only while none is on its way
      have hbound : s.shared.stop = false → s.shared.stopDrained = false →
          s.shared.bound = false := by
        intro hstop hunbound
        by_contra hne
        have hone : s.shared.bound.toNat = 1 := by simpa using hne
        rw [hunbound, Bool.toNat_false] at hcallback
        have := (hsettled (by omega)).2
        rw [hstop] at this
        cases this
      have := hmove.callback hbound
      have := hset Phase.notifying
      show sh.stopDrained.toNat + total Phase.notifying (s.actors.set i b) + sh.notified =
        sh.bound.toNat
      omega
    · intro hstop hpending
      show 1 ≤ total Phase.cleaner (s.actors.set i b)
      have := hset Phase.cleaner
      have := hle Phase.cleaner
      rcases hmove.cleaner (hflags.sound a hmem) hstop hpending with ⟨hstop₀, hpending₀, _⟩ | _
      · have := hcleaner hstop₀ hpending₀
        omega
      · omega
    · exact hmove.owed (hslots.le_inflight hi) howed
    · intro hbegun hstop
      show 1 ≤ total Phase.setting (s.actors.set i b)
      have := hset Phase.setting
      have := hle Phase.setting
      rcases hmove.setting hbegun hstop with ⟨hbegun₀, hstop₀, _⟩ | _
      · have := hsetting hbegun₀ hstop₀
        omega
      · omega
    · intro hnotified
      rcases hmove.notifying with hless | ⟨hzero, hpending, hstop⟩
      · refine hkeep ?_
        have hold := hsettled (by
          have := hset Phase.notifying
          have := hle Phase.notifying
          change 1 ≤ total Phase.notifying (s.actors.set i b) + sh.notified at hnotified
          omega)
        exact ⟨hold.1, hmove.le.stop hold.2⟩
      · refine ⟨?_, hstop⟩
        have hquiet := hslots'.quiet hzero hpending
        simp only [observe, Bool.or_eq_true, Bool.and_eq_true, decide_eq_true_eq]
        exact .inr ⟨hstop, hquiet⟩

/-! ## Runs -/

structure Inv (s : State) : Prop where
  slots : Slots s
  flags : Flags s
  tasks : Tasks s
  stranded : Stranded s
  drain : Drain s

theorem inv_init (threads maxConcurrentTask : ℕ) : Inv (init threads maxConcurrentTask) where
  slots := ⟨rfl, Nat.zero_le _⟩
  flags := ⟨fun h => absurd h (by simp [init]), by simp [init]⟩
  tasks := ⟨fun _ => rfl, fun _ => Nat.zero_le _, fun _ _ => rfl, fun _ => le_rfl, fun _ _ _ => rfl⟩
  stranded := fun _ h => absurd rfl h
  drain := ⟨rfl, fun h => absurd h (by simp [init]), fun h => absurd h (by simp [init]),
    fun h => absurd h (by simp [init]), fun h => absurd h (by simp [init])⟩

theorem maxInflight_step {s s' : State} (hslots : Slots s) (hs : Steps s s') :
    s'.shared.maxInflight = s.shared.maxInflight ∧ s'.threads = s.threads := by
  cases hs with
  | call c => exact ⟨rfl, rfl⟩
  | start j c hj => exact ⟨rfl, rfl⟩
  | move i a b sh hi hmove => exact ⟨(hmove.slots (hslots.le_inflight hi)).2.1, rfl⟩

theorem Inv.step {s s' : State} {a : Action} (h : Inv s) (hmax : 1 ≤ s.shared.maxInflight)
    (hs : step s a = some s') : Inv s' := by
  obtain ⟨s₁, hsteps, rfl⟩ := steps_of_step hs
  have hslots := h.slots.step hsteps
  have hflags := h.flags.step hsteps
  have htasks := h.tasks.step h.flags hsteps
  have hstranded := h.stranded.step h.slots h.flags hmax hsteps
  exact ⟨⟨hslots.1, hslots.2⟩, ⟨hflags.1, hflags.2⟩,
    ⟨htasks.1, htasks.2, htasks.3, htasks.4, htasks.5⟩, hstranded,
    h.drain.step h.slots h.flags hsteps hslots⟩

variable {as : List Action}

theorem inv_run {threads maxConcurrentTask : ℕ} (hthreads : 1 ≤ threads)
    (h : run step (init threads maxConcurrentTask) as = some s) :
    Inv s ∧ s.shared.maxInflight = (init threads maxConcurrentTask).shared.maxInflight ∧
      s.threads = threads := by
  have hmax : 1 ≤ (init threads maxConcurrentTask).shared.maxInflight := by
    simp only [init]
    split_ifs <;> omega
  refine run_invariant (I := fun s => Inv s ∧
    s.shared.maxInflight = (init threads maxConcurrentTask).shared.maxInflight ∧
      s.threads = threads) ?_ ⟨inv_init _ _, rfl, rfl⟩ h
  rintro s a s' ⟨hinv, hsame, hcount⟩ hs
  obtain ⟨s₁, hsteps, rfl⟩ := steps_of_step hs
  obtain ⟨hm, ht⟩ := maxInflight_step hinv.slots hsteps
  exact ⟨hinv.step (hsame ▸ hmax) hs, hm.trans hsame, ht.trans hcount⟩

/-! ## What is left to do -/

/-- The steps that a call in this phase may still take. -/
def Phase.work : Phase → ℕ
  | .claim _ | .unwind _ | .waitForAll | .bind => 1
  | .handoff => 3
  | .check _ => 4
  | .destroy .. => 5
  | .running .. => 6
  | .invoke .. => 7
  | .submit _ => 9
  | .enqueue _ | .schedule _ => 11
  | _ => 0

/-- The steps that a closure of the pool may still take. -/
def Closure.work : Closure → ℕ
  | .next => 2
  | .task _ => 8

/-- The steps that are left before a stop, if nobody calls. A pending task is claimed, called,
    destroyed and handed on from. -/
def work (s : State) : ℕ :=
  7 * s.shared.pending.length + total Closure.work s.shared.pool + total Phase.work s.actors

theorem Moves.work {s s' : Shared} (h : Moves s a s' b) (ha : a.Sound s)
    (hstop : s.stop = true → s.stopBegun = true) (hbegun : s'.stopBegun = false) :
    7 * s'.pending.length + total Closure.work s'.pool + b.work <
      7 * s.pending.length + total Closure.work s.pool + a.work := by
  have hle := h.le
  have hrunning : s.stop = false := by
    by_contra hne
    exact absurd (hle.stopBegun (hstop (by simpa using hne))) (by simpa using hbegun)
  cases h with
  | @release _ next hr =>
    obtain ⟨d, hd⟩ := releaseSlot_fst s next
    rcases releaseSlot_cases s next with ⟨heq, -⟩ | ⟨⟨-, -, hs, -⟩, -⟩
    · rw [heq]
      cases hr with
      | claim y _ | check y _ =>
        simp only [Phase.work]
        omega
      | drained max n failed _ => exact absurd ha.1 (by simp [hrunning])
      | limit n failed _ => exact absurd ha.1 (by simp [hrunning])
      | failed => exact absurd ha (by simp [Phase.Sound, hrunning])
    · exact absurd hs (by simp [hrunning])
  | claim t rest y _ hpending =>
    simp only [hpending, Phase.work, List.length_cons]
    omega
  | check y _ _ =>
    cases y <;>
    · simp only [Phase.work, if_true, Bool.false_eq_true, if_false]
      omega
  | refuse t ha | reserve t ha _ _ =>
    rcases ha with rfl | rfl <;>
    · simp only [Phase.work]
      omega
  | stopBegin max failed => exact absurd hbegun (by simp)
  | stopSet max failed => exact absurd ha.1 (by simp [show s.stopBegun = false from hbegun])
  | pop max n t rest failed _ => exact absurd ha.1 (by simp [hrunning])
  | discard max n t failed => exact absurd ha.1 (by simp [hrunning])
  | notify next => exact absurd ha.1 (by simp [hrunning])
  | _ =>
    simp only [Phase.work, List.length_append, List.length_cons, List.length_nil, total_append,
      total_cons, total_nil, Closure.work]
    omega

/-- Every step before a stop that is not a new call leaves less to do. -/
theorem work_step {s s' : State} {a : Action} (h : Inv s) (ha : a.internal = true)
    (hs : step s a = some s') (hbegun : s'.shared.stopBegun = false) : work s' < work s := by
  obtain ⟨s₁, hs₁, rfl⟩ := Option.map_eq_some_iff.mp hs
  change s₁.shared.stopBegun = false at hbegun
  show work s₁ < work s
  cases a with
  | call c => cases ha
  | start j =>
    simp only [advance] at hs₁
    split_ifs at hs₁
    obtain ⟨c, hj, rfl⟩ := Option.map_eq_some_iff.mp hs₁
    have hpool := total_eraseIdx (w := Closure.work) hj
    have hphase : c.phase.work < c.work := by
      cases c <;> simp [Closure.phase, Closure.work, Phase.work]
    simp only [work, total_append, total_cons, total_nil]
    omega
  | move i ok =>
    simp only [advance] at hs₁
    obtain ⟨x, hi, hs₁⟩ := Option.bind_eq_some_iff.mp hs₁
    obtain ⟨⟨sh, b⟩, hact, rfl⟩ := Option.map_eq_some_iff.mp hs₁
    have hwork := (moves_of_act hact).work (h.flags.sound x (List.mem_of_getElem? hi)) h.flags.begun
      hbegun
    have hset := total_set (w := Phase.work) hi b
    have hle := weight_le_total (w := Phase.work) (List.mem_of_getElem? hi)
    simp only [work]
    omega

theorem stopBegun_mono {s s' : State} {a : Action} (hs : step s a = some s')
    (hbegun : s'.shared.stopBegun = false) : s.shared.stopBegun = false := by
  obtain ⟨s₁, hsteps, rfl⟩ := steps_of_step hs
  change s₁.shared.stopBegun = false at hbegun
  cases hsteps with
  | call c => exact hbegun
  | start j c hj => exact hbegun
  | move i a b sh hi hmove =>
    by_contra hne
    exact absurd (hmove.le.stopBegun (by simpa using hne)) (by simpa using hbegun)

/-- Without new calls, there are only so many steps before a stop. -/
theorem length_le_work {s s' : State} (h : Inv s) (hmax : 1 ≤ s.shared.maxInflight)
    (has : ∀ a ∈ as, a.internal = true) (hs : run step s as = some s')
    (hbegun : s'.shared.stopBegun = false) : as.length ≤ work s ∧ s.shared.stopBegun = false := by
  induction as generalizing s with
  | nil =>
    cases hs
    exact ⟨Nat.zero_le _, hbegun⟩
  | cons a as ih =>
    obtain ⟨s₁, hs₁, hrest⟩ := Option.bind_eq_some_iff.mp hs
    obtain ⟨s₂, hsteps, rfl⟩ := steps_of_step hs₁
    have hmax₁ : 1 ≤ (observe s₂).shared.maxInflight := by
      rw [show (observe s₂).shared.maxInflight = s.shared.maxInflight from
        (maxInflight_step h.slots hsteps).1]
      exact hmax
    obtain ⟨hlength, hbegun₁⟩ := ih (h.step hmax hs₁) hmax₁
      (fun a ha => has a (List.mem_cons_of_mem _ ha)) hrest
    have hwork := work_step h (has a List.mem_cons_self) hs₁ hbegun₁
    exact ⟨by rw [List.length_cons]; omega, stopBegun_mono hs₁ hbegun₁⟩

/-- A thread that holds a capture holds a slot or a cleanup. -/
theorem Slots.holds_eq_zero (h : Slots s) (hinflight : s.shared.inflight = 0) (x : ℕ) :
    total (Phase.holds x) s.actors = 0 := by
  have hholds : ∀ a : Phase, a.slot = 0 → a.cleanup = 0 → a.holds x = 0 := by
    intro a hslot hclean
    induction a with
    | notify next ih => exact ih hslot hclean
    | _ => simp_all [Phase.slot, Phase.cleanup, Phase.holds]
  refine total_eq_zero fun a ha => ?_
  have hcount := h.inflight
  have hslot := weight_le_total (w := Phase.slot) ha
  have hclean := weight_le_total (w := Phase.cleanup) ha
  exact hholds a (by omega) (by omega)

/-! ## At rest -/

/-- A thread that cannot move is done, or waits in `schedule` or `wait_for_all`. -/
theorem act_eq_none {s : Shared} (h : act s true a = none) :
    a = .waitForAll ∨ (∃ t, a = .schedule t) ∨ a = .done := by
  cases a with
  | waitForAll => exact .inl rfl
  | schedule t => exact .inr (.inl ⟨t, rfl⟩)
  | done => exact .inr (.inr rfl)
  | _ =>
    exfalso
    simp only [act] at h
    (repeat' split at h) <;> simp at h

/-- Nothing runs, and every call has returned or waits. -/
structure AtRest (s : State) : Prop where
  pool : s.shared.pool = []
  inflight : s.shared.inflight = 0
  actors : ∀ a ∈ s.actors, a = .waitForAll ∨ (∃ t, a = .schedule t) ∨ a = .done

theorem Idle.atRest (h : Idle s) (hslots : Slots s) (hthreads : 1 ≤ s.threads) : AtRest s := by
  have hactors : ∀ a ∈ s.actors, a = .waitForAll ∨ (∃ t, a = .schedule t) ∨ a = .done := by
    intro a ha
    obtain ⟨i, hi⟩ := List.mem_iff_getElem?.mp ha
    have hnone := h (.move i true) rfl
    rw [step, advance, hi, Option.bind_some, Option.map_map, Option.map_eq_none_iff] at hnone
    exact act_eq_none hnone
  have hpool : s.shared.pool = [] := by
    by_contra hne
    have hfree : s.actors.countP Phase.onWorker < s.threads := by
      rw [List.countP_eq_zero.mpr fun a ha => ?_]
      · omega
      · rcases hactors a ha with rfl | ⟨t, rfl⟩ | rfl <;> simp [Phase.onWorker]
    have hnone := h (.start 0) rfl
    rw [step, advance, if_pos hfree, Option.map_map, Option.map_eq_none_iff] at hnone
    exact hne (by simpa using hnone)
  refine ⟨hpool, ?_, hactors⟩
  rw [hslots.inflight, hpool, total_eq_zero, total_eq_zero]
  · rfl
  · intro a ha
    rcases hactors a ha with rfl | ⟨t, rfl⟩ | rfl <;> rfl
  · intro a ha
    rcases hactors a ha with rfl | ⟨t, rfl⟩ | rfl <;> rfl

theorem AtRest.total_eq_zero (h : AtRest s) {w : Phase → ℕ}
    (hw : w .waitForAll = 0 ∧ (∀ t, w (.schedule t) = 0) ∧ w .done = 0) : total w s.actors = 0 := by
  refine Common.total_eq_zero fun a ha => ?_
  rcases h.actors a ha with rfl | ⟨t, rfl⟩ | rfl
  · exact hw.1
  · exact hw.2.1 t
  · exact hw.2.2

/-! ## The contract -/

/-- The worker slots that are held. A closure of the pool's queue holds one. -/
def State.slots (s : State) : ℕ := s.shared.pool.length + total Phase.slot s.actors

/-- Every state that a run reaches after a stop with `Quiet`, is on record. -/
theorem exists_quiet {s₀ s : State} (h : run step s₀ as = some s) (h₀ : s₀.settled = false)
    (hs : s.settled = true) :
    ∃ as₁ as₂ s₁, as = as₁ ++ as₂ ∧ run step s₀ as₁ = some s₁ ∧ s₁.shared.stop = true ∧
      Quiet s₁ := by
  induction as generalizing s₀ with
  | nil =>
    cases h
    rw [h₀] at hs
    cases hs
  | cons a as ih =>
    obtain ⟨s₁, hs₁, hrest⟩ := Option.bind_eq_some_iff.mp h
    cases hsettled : s₁.settled with
    | false =>
      obtain ⟨as₁, as₂, s₂, rfl, hrun, hq⟩ := ih hrest hsettled
      refine ⟨a :: as₁, as₂, s₂, rfl, ?_, hq⟩
      rw [run_cons, hs₁]
      exact hrun
    | true =>
      refine ⟨[a], as, s₁, rfl, by rw [run_cons, hs₁]; rfl, ?_⟩
      obtain ⟨s₂, hs₂, rfl⟩ := Option.map_eq_some_iff.mp hs₁
      have hold : s₂.settled = false := by
        rw [← h₀]
        cases a with
        | call c => cases hs₂; rfl
        | start j =>
          simp only [advance] at hs₂
          split_ifs at hs₂
          obtain ⟨c, -, rfl⟩ := Option.map_eq_some_iff.mp hs₂
          rfl
        | move i ok =>
          simp only [advance] at hs₂
          obtain ⟨x, -, hs₂⟩ := Option.bind_eq_some_iff.mp hs₂
          obtain ⟨r, -, rfl⟩ := Option.map_eq_some_iff.mp hs₂
          rfl
      have hq : s₂.shared.stop = true ∧ Quiet s₂ := by simpa [observe, hold] using hsettled
      exact hq

/-- What holds after the run `as`, in the state `s` that it reached. -/
structure Contract (s₀ : State) (as : List Action) (s : State) : Prop where
  /-- At most `max_inflight` tasks run at once. -/
  running : s.running ≤ s.shared.maxInflight
  /-- Every accepted task has run at most once, and no other task has. -/
  once : ∀ t, s.shared.ran.count t ≤ 1 ∧ (t ∈ s.shared.ran → t ∈ s.shared.accepted)
  /-- Before a stop, without new calls there are only so many steps left to do, … -/
  finite : ∀ bs s', (∀ b ∈ bs, b.internal = true) → run step s bs = some s' →
    s'.shared.stopBegun = false → bs.length ≤ work s
  /-- … and when there are none every accepted task has run exactly once. -/
  complete : Idle s → s.shared.stopBegun = false → s.shared.submitFailed = false →
    ∀ t ∈ s.shared.accepted, s.shared.ran.count t = 1
  /-- While no `request_stop` has begun, pending tasks imply that a slot is held. -/
  served : s.shared.stopBegun = false → s.shared.pending ≠ [] → 1 ≤ s.slots
  /-- `wait_for_all` returns only when no task is running or pending and every capture has been
      destroyed. -/
  waited : ∀ (i : ℕ) ok s', s.actors[i]? = some .waitForAll → step s (.move i ok) = some s' →
    Quiet s ∧ ∀ t ∈ s.shared.accepted, t ∈ s.shared.destroyed
  /-- The callback is called at most once, … -/
  notified : s.shared.notified ≤ s.shared.bound.toNat
  /-- … after the stop and after such a state was reached, … -/
  notifying : ∀ (i : ℕ) (next : Phase), s.actors[i]? = some (.notify next) → s.shared.stop = true ∧
    ∃ as₁ as₂ s₁, as = as₁ ++ as₂ ∧ run step s₀ as₁ = some s₁ ∧ s₁.shared.stop = true ∧ Quiet s₁
  /-- … and has been called when a stop was requested and nothing is left to do. -/
  drained : Idle s → s.shared.stopBegun = true → s.shared.notified = s.shared.bound.toNat

/-- **The contract of the dispatcher**, over every interleaving of callers, workers and pool
    threads, with any submission and any task throwing. -/
theorem dispatcher_contract (threads maxConcurrentTask : ℕ) (hthreads : 1 ≤ threads)
    (as : List Action) (s : State) (h : run step (init threads maxConcurrentTask) as = some s) :
    Contract (init threads maxConcurrentTask) as s := by
  obtain ⟨hinv, hmax, hcount⟩ := inv_run hthreads h
  have hmax' : 1 ≤ s.shared.maxInflight := by
    rw [hmax]
    simp only [init]
    split_ifs <;> omega
  have honce : ∀ t, s.shared.ran.count t ≤ s.shared.accepted.count t := fun t => by
    have := hinv.tasks.ran t
    omega
  have haccepted : ∀ t, s.shared.accepted.count t ≤ 1 := fun t => by
    have := hinv.tasks.once t
    omega
  have hrest : Idle s → AtRest s := fun hidle => hidle.atRest hinv.slots (hcount ▸ hthreads)
  constructor
  · exact hinv.slots.running_le
  · refine fun t => ⟨(honce t).trans (haccepted t), fun ht => ?_⟩
    have := List.one_le_count_iff.mpr ht
    exact List.one_le_count_iff.mp (this.trans (honce t))
  · exact fun bs s' hbs hrun hbegun => (length_le_work hinv hmax' hbs hrun hbegun).1
  · intro hidle hbegun hfailed t ht
    have hat := hrest hidle
    have hone := List.one_le_count_iff.mpr ht
    have hnil : s.shared.pending = [] := by
      by_contra hne
      have hslot := hinv.stranded hbegun hne
      rw [hat.pool, hat.total_eq_zero ⟨rfl, fun _ => rfl, rfl⟩] at hslot
      exact absurd hslot (by simp)
    have hconserved := hinv.tasks.conserved hbegun hfailed t
    rw [hnil, hat.pool, hat.total_eq_zero ⟨rfl, fun _ => rfl, rfl⟩, List.count_nil, total_nil]
      at hconserved
    have := haccepted t
    omega
  · exact hinv.stranded
  · intro i ok s' hi hstep
    rw [step, advance, hi, Option.bind_some, act] at hstep
    have hguard : s.shared.inflight = 0 ∧ s.shared.pending = [] := by
      by_contra hne
      rw [if_neg hne] at hstep
      cases hstep
    have hquiet := hinv.slots.quiet hguard.1 hguard.2
    refine ⟨hquiet, fun t ht => ?_⟩
    have hcaptures := hinv.tasks.captures t
    have hpool : s.shared.pool = [] := by
      have := hinv.slots.inflight
      exact List.eq_nil_of_length_eq_zero (by omega)
    rw [hguard.2, hpool, hinv.slots.holds_eq_zero hguard.1, List.count_nil, total_nil] at hcaptures
    have := List.one_le_count_iff.mpr ht
    exact List.one_le_count_iff.mp (by omega)
  · have := hinv.drain.callback
    omega
  · intro i next hi
    have hnotifying : 1 ≤ total Phase.notifying s.actors :=
      le_trans (by simp [Phase.notifying])
        (weight_le_total (w := Phase.notifying) (List.mem_of_getElem? hi))
    obtain ⟨hsettled, hstop⟩ := hinv.drain.settled (by omega)
    exact ⟨hstop, exists_quiet h rfl hsettled⟩
  · intro hidle hbegun
    have hat := hrest hidle
    have hstop : s.shared.stop = true := by
      by_contra hne
      have hset := hinv.drain.setting hbegun (by simpa using hne)
      rw [hat.total_eq_zero ⟨rfl, fun _ => rfl, rfl⟩] at hset
      exact absurd hset (by simp)
    have hnil : s.shared.pending = [] := by
      by_contra hne
      have hclean := hinv.drain.cleaner hstop hne
      rw [hat.total_eq_zero ⟨rfl, fun _ => rfl, rfl⟩] at hclean
      exact absurd hclean (by simp)
    have hunbound : s.shared.stopDrained = false := by
      by_contra hne
      have howed := hinv.drain.owed hstop (by simpa using hne) hnil
      rw [hat.inflight] at howed
      exact absurd howed (by simp)
    have hcallback := hinv.drain.callback
    rw [hunbound, hat.total_eq_zero ⟨rfl, fun _ => rfl, rfl⟩, Bool.toNat_false] at hcallback
    omega

/-- Two tasks on one slot: the second is queued, and the worker of the first hands on to it. -/
def twoTasks : List Action :=
  [.call .enqueue, .move 0 true, .move 0 true, .call .enqueue, .move 1 true, .start 0,
    .move 2 true, .move 2 true, .move 2 true, .move 2 true, .move 2 true, .start 0,
    .move 3 true, .move 3 true, .move 3 true, .move 3 true, .move 3 true]

/-- Both have run, and nothing is left. -/
def afterTwoTasks : State where
  threads := 2
  shared := { maxInflight := 1, accepted := [1, 0], ran := [1, 0], destroyed := [1, 0] }
  actors := [.done, .done, .done, .done]
  nextTask := 2

theorem two_tasks_contract :
    run step (init 2 1) twoTasks = some afterTwoTasks ∧ Contract (init 2 1) twoTasks afterTwoTasks := by
  have hrun : run step (init 2 1) twoTasks = some afterTwoTasks := by decide +kernel
  exact ⟨hrun, dispatcher_contract 2 1 (by decide) twoTasks afterTwoTasks hrun⟩

end Sirius.Exec.ScopedDispatcher
