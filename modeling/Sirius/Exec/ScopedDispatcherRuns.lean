import Sirius.Exec.ScopedDispatcher

/-!
# Slots and tasks of the scoped dispatcher

* `Moves`: everything one step of a thread can do.
* `Slots`: the counter `inflight_` is the number of worker slots and stop cleanups, and there are
  never more slots than `max_inflight_`.
* `Flags`: what the place of a thread says about the flags.
* `Tasks`: where each accepted task is.
-/

namespace Sirius.Exec.ScopedDispatcher

open Sirius.Common

/-! ## What a step can do -/

/-- The places from which a thread gives its slot or its cleanup back, with what follows. -/
inductive Releases (s : Shared) : Phase → Phase → Prop
  | claim (y : Bool) (h : s.stop = true ∨ s.pending = []) : Releases s (.claim y) .done
  | check (y : Bool) (h : s.stop = true ∨ s.pending = []) : Releases s (.check y) .done
  | drained (max : Option ℕ) (n : ℕ) (failed : Bool) (h : s.pending = []) :
      Releases s (.stopLoop max n failed) (afterStop max failed true)
  | limit (n : ℕ) (failed : Bool) (h : s.pending ≠ []) :
      Releases s (.stopLoop (some n) n failed) (afterStop (some n) failed false)
  | failed : Releases s .releaseFailed .done

inductive Moves (s : Shared) : Phase → Shared → Phase → Prop
  | release {a next : Phase} (h : Releases s a next) :
      Moves s a (releaseSlot s next).1 (releaseSlot s next).2
  | claim (t : ℕ) (rest : List ℕ) (y : Bool) (hstop : s.stop = false)
      (hpending : s.pending = t :: rest) :
      Moves s (.claim y) { s with pending := rest } (.invoke t y)
  | skip (t : ℕ) (y : Bool) (hstop : s.stop = true) : Moves s (.invoke t y) s (.destroy t y)
  | invoke (t : ℕ) (y : Bool) (hstop : s.stop = false) :
      Moves s (.invoke t y) { s with ran := t :: s.ran } (.running t y)
  | finish (t : ℕ) (y : Bool) : Moves s (.running t y) s (.destroy t y)
  | destroy (t : ℕ) (y : Bool) :
      Moves s (.destroy t y) { s with destroyed := t :: s.destroyed } (.check y)
  | check (y : Bool) (hstop : s.stop = false) (hpending : s.pending ≠ []) :
      Moves s (.check y) s (if y then .handoff else .claim false)
  | handoff : Moves s .handoff { s with pool := s.pool ++ [Closure.next] } .done
  | handoffThrew : Moves s .handoff s (.claim false)
  | refuse {a : Phase} (t : ℕ) (ha : a = .enqueue t ∨ a = .schedule t) : Moves s a s .done
  | reserve {a : Phase} (t : ℕ) (ha : a = .enqueue t ∨ a = .schedule t) (hstop : s.stop = false)
      (hfree : s.inflight < s.maxInflight) :
      Moves s a { s with inflight := s.inflight + 1, accepted := t :: s.accepted } (.submit t)
  | queue (t : ℕ) (hstop : s.stop = false) (hfull : s.maxInflight ≤ s.inflight) :
      Moves s (.enqueue t)
        { s with pending := s.pending ++ [t], accepted := t :: s.accepted } .done
  | submit (t : ℕ) : Moves s (.submit t) { s with pool := s.pool ++ [Closure.task t] } .done
  | submitThrew (t : ℕ) : Moves s (.submit t) { s with submitFailed := true } (.unwind t)
  | unwind (t : ℕ) :
      Moves s (.unwind t) { s with destroyed := t :: s.destroyed } (.stopBegin none true)
  | stopBegin (max : Option ℕ) (failed : Bool) :
      Moves s (.stopBegin max failed) { s with inflight := s.inflight + 1, stopBegun := true }
        (.stopSet max failed)
  | stopSet (max : Option ℕ) (failed : Bool) :
      Moves s (.stopSet max failed) { s with stop := true } (.stopLoop max 0 failed)
  | pop (max : Option ℕ) (n t : ℕ) (rest : List ℕ) (failed : Bool)
      (hpending : s.pending = t :: rest) :
      Moves s (.stopLoop max n failed) { s with pending := rest } (.discard t max n failed)
  | discard (max : Option ℕ) (n t : ℕ) (failed : Bool) :
      Moves s (.discard t max n failed) { s with destroyed := t :: s.destroyed }
        (.stopLoop max (n + 1) failed)
  | waited (hinflight : s.inflight = 0) (hpending : s.pending = []) : Moves s .waitForAll s .done
  | bindThrew : Moves s .bind s .done
  | bind (hstop : s.stop = false) (hunbound : s.stopDrained = false) :
      Moves s .bind { s with stopDrained := true, bound := true } .done
  | notify (next : Phase) : Moves s (.notify next) { s with notified := s.notified + 1 } next

variable {s s' : Shared} {a b : Phase}

theorem moves_of_act {ok : Bool} (h : act s ok a = some (s', b)) : Moves s a s' b := by
  have hrelease : ∀ {next}, Releases s a next → some (releaseSlot s next) = some (s', b) →
      Moves s a s' b := by
    intro next hr heq
    have hmove := Moves.release hr
    rwa [Option.some.inj heq] at hmove
  cases a with
  | claim y =>
    simp only [act] at h
    split_ifs at h with hstop
    · exact hrelease (.claim y (.inl hstop)) h
    · split at h
      · next hnil => exact hrelease (.claim y (.inr hnil)) h
      · next t rest hcons =>
        cases h
        exact .claim t rest y (by simpa using hstop) hcons
  | invoke t y =>
    simp only [act] at h
    split_ifs at h with hstop <;> cases h
    · exact .skip t y hstop
    · exact .invoke t y (by simpa using hstop)
  | running t y => cases h; exact .finish t y
  | destroy t y => cases h; exact .destroy t y
  | check y =>
    simp only [act] at h
    split_ifs at h with hr hy
    · exact hrelease (.check y hr) h
    · cases h
      have hmove := Moves.check y (by simpa using mt .inl hr) (mt .inr hr)
      rwa [if_pos hy] at hmove
    · cases h
      have hmove := Moves.check y (by simpa using mt .inl hr) (mt .inr hr)
      rwa [if_neg hy] at hmove
  | handoff =>
    simp only [act] at h
    split_ifs at h <;> cases h
    · exact .handoff
    · exact .handoffThrew
  | enqueue t =>
    simp only [act] at h
    split_ifs at h with hstop hfree <;> cases h
    · exact .refuse t (.inl rfl)
    · exact .reserve t (.inl rfl) (by simpa using hstop) hfree
    · exact .queue t (by simpa using hstop) (not_lt.mp hfree)
    · exact .refuse t (.inl rfl)
  | schedule t =>
    simp only [act] at h
    split_ifs at h with hstop hfree <;> cases h
    · exact .refuse t (.inr rfl)
    · exact .reserve t (.inr rfl) (by simpa using hstop) hfree
  | submit t =>
    simp only [act] at h
    split_ifs at h <;> cases h
    · exact .submit t
    · exact .submitThrew t
  | unwind t => cases h; exact .unwind t
  | stopBegin max failed => cases h; exact .stopBegin max failed
  | stopSet max failed => cases h; exact .stopSet max failed
  | stopLoop max n failed =>
    simp only [act] at h
    split at h
    · next hnil => exact hrelease (.drained max n failed hnil) h
    · next t rest hcons =>
      split_ifs at h with hmax
      · subst hmax
        exact hrelease (.limit n failed (by simp [hcons])) h
      · cases h
        exact .pop max n t rest failed hcons
  | discard t max n failed => cases h; exact .discard max n t failed
  | releaseFailed => exact hrelease .failed h
  | waitForAll =>
    simp only [act] at h
    split_ifs at h with hw
    cases h
    exact .waited hw.1 hw.2
  | bind =>
    simp only [act] at h
    split_ifs at h with hb <;> cases h
    · exact .bindThrew
    · exact .bind (by simpa using mt .inl hb) (by simpa using mt .inr hb)
  | notify next => cases h; exact .notify _
  | done => cases h

/-- A release takes the callback when it is the last one after a stop, and no other time. -/
theorem releaseSlot_cases (s : Shared) (next : Phase) :
    (releaseSlot s next = ({ s with inflight := s.inflight - 1 }, next) ∧
      ¬ (s.inflight - 1 = 0 ∧ s.pending = [] ∧ s.stop = true ∧ s.stopDrained = true)) ∨
    (s.inflight - 1 = 0 ∧ s.pending = [] ∧ s.stop = true ∧ s.stopDrained = true) ∧
      releaseSlot s next =
        ({ s with inflight := s.inflight - 1, stopDrained := false }, .notify next) := by
  unfold releaseSlot
  dsimp only
  split_ifs with h
  · exact .inr ⟨h, rfl⟩
  · exact .inl ⟨rfl, h⟩

/-- All but the counter and the callback is left alone by a release. -/
theorem releaseSlot_fst (s : Shared) (next : Phase) :
    ∃ d, (releaseSlot s next).1 = { s with inflight := s.inflight - 1, stopDrained := d } := by
  rcases releaseSlot_cases s next with ⟨h, -⟩ | ⟨-, h⟩ <;> rw [h]
  · exact ⟨s.stopDrained, rfl⟩
  · exact ⟨false, rfl⟩

/-- A weight that does not see the callback. -/
theorem weight_releaseSlot {w : Phase → ℕ} (hw : ∀ next, w (.notify next) = w next) (s : Shared)
    (next : Phase) : w (releaseSlot s next).2 = w next := by
  rcases releaseSlot_cases s next with ⟨h, -⟩ | ⟨-, h⟩ <;> rw [h]
  exact hw next

/-! ## Slots -/

/-- The worker slots of a thread. -/
def Phase.slot : Phase → ℕ
  | .claim _ | .invoke .. | .running .. | .destroy .. | .check _ | .handoff | .submit _
  | .unwind _ | .releaseFailed => 1
  | .stopBegin _ failed | .stopSet _ failed | .stopLoop _ _ failed | .discard _ _ _ failed =>
    failed.toNat
  | .notify next => next.slot
  | .enqueue _ | .schedule _ | .waitForAll | .bind | .done => 0

/-- The stop cleanups of a thread. -/
def Phase.cleanup : Phase → ℕ
  | .stopSet .. | .stopLoop .. | .discard .. => 1
  | .notify next => next.cleanup
  | _ => 0

theorem slot_afterStop (max : Option ℕ) (failed empty : Bool) :
    (afterStop max failed empty).slot = failed.toNat ∧
      (afterStop max failed empty).cleanup = 0 := by
  cases failed <;> cases empty <;> exact ⟨rfl, rfl⟩

/-- What the counter stands for moves with it. -/
theorem Moves.slots (h : Moves s a s' b) (hpos : a.slot + a.cleanup ≤ s.inflight) :
    s'.inflight + (s.pool.length + a.slot + a.cleanup) =
        s.inflight + (s'.pool.length + b.slot + b.cleanup) ∧
      s'.maxInflight = s.maxInflight ∧
      (s'.pool.length + b.slot ≤ s.pool.length + a.slot ∨
        s.inflight < s.maxInflight ∧ s'.pool.length + b.slot = s.pool.length + a.slot + 1) := by
  cases h with
  | @release _ next hr =>
    obtain ⟨d, hd⟩ := releaseSlot_fst s next
    rw [hd, weight_releaseSlot (w := Phase.slot) (fun _ => rfl),
      weight_releaseSlot (w := Phase.cleanup) (fun _ => rfl)]
    cases hr with
    | claim y _ | check y _ | failed =>
      simp only [Phase.slot, Phase.cleanup] at *
      exact ⟨by omega, trivial, .inl (by omega)⟩
    | drained max n failed _ =>
      obtain ⟨hslot, hclean⟩ := slot_afterStop max failed true
      simp only [Phase.slot, Phase.cleanup, hslot, hclean] at *
      exact ⟨by omega, trivial, .inl (by omega)⟩
    | limit n failed _ =>
      obtain ⟨hslot, hclean⟩ := slot_afterStop (some n) failed false
      simp only [Phase.slot, Phase.cleanup, hslot, hclean] at *
      exact ⟨by omega, trivial, .inl (by omega)⟩
  | check y _ _ => cases y <;> exact ⟨rfl, rfl, .inl le_rfl⟩
  | refuse t ha => rcases ha with rfl | rfl <;> exact ⟨rfl, rfl, .inl le_rfl⟩
  | reserve t ha _ hfree =>
    rcases ha with rfl | rfl <;>
    · refine ⟨?_, rfl, .inr ⟨hfree, rfl⟩⟩
      simp only [Phase.slot, Phase.cleanup]
      omega
  | notify next => exact ⟨rfl, rfl, .inl le_rfl⟩
  | _ =>
    refine ⟨?_, rfl, .inl ?_⟩ <;>
      simp only [Phase.slot, Phase.cleanup, List.length_append, List.length_cons,
        List.length_nil, Bool.toNat_true] <;> omega

/-- Everything a step of the system can do. -/
inductive Steps (s : State) : State → Prop
  | call (c : Call) :
      Steps s { s with actors := s.actors ++ [c.phase s.nextTask], nextTask := s.nextTask + 1 }
  | start (j : ℕ) (c : Closure) (hj : s.shared.pool[j]? = some c) :
      Steps s { s with
        shared := { s.shared with pool := s.shared.pool.eraseIdx j }
        actors := s.actors ++ [c.phase] }
  | move (i : ℕ) (a b : Phase) (sh : Shared) (hi : s.actors[i]? = some a)
      (hmove : Moves s.shared a sh b) :
      Steps s { s with shared := sh, actors := s.actors.set i b }

theorem steps_of_step {s s' : State} {a : Action} (h : step s a = some s') :
    ∃ s₁, Steps s s₁ ∧ s' = observe s₁ := by
  obtain ⟨s₁, hs₁, rfl⟩ := Option.map_eq_some_iff.mp h
  refine ⟨s₁, ?_, rfl⟩
  cases a with
  | call c => cases hs₁; exact .call c
  | start j =>
    simp only [advance] at hs₁
    split_ifs at hs₁
    obtain ⟨c, hj, rfl⟩ := Option.map_eq_some_iff.mp hs₁
    exact .start j c hj
  | move i ok =>
    simp only [advance] at hs₁
    obtain ⟨a, hi, hs₁⟩ := Option.bind_eq_some_iff.mp hs₁
    obtain ⟨⟨sh, b⟩, hact, rfl⟩ := Option.map_eq_some_iff.mp hs₁
    exact .move i a b sh hi (moves_of_act hact)

/-- **The counter is the number of slots and cleanups**, and the slots are within the limit. -/
structure Slots (s : State) : Prop where
  inflight : s.shared.inflight =
    s.shared.pool.length + total Phase.slot s.actors + total Phase.cleanup s.actors
  limit : s.shared.pool.length + total Phase.slot s.actors ≤ s.shared.maxInflight

/-- A thread that moves holds no more than is counted. -/
theorem Slots.le_inflight {s : State} (h : Slots s) {i : ℕ}
    (hi : s.actors[i]? = some a) : a.slot + a.cleanup ≤ s.shared.inflight := by
  have hslot := weight_le_total (w := Phase.slot) (List.mem_of_getElem? hi)
  have hclean := weight_le_total (w := Phase.cleanup) (List.mem_of_getElem? hi)
  have := h.inflight
  omega

theorem Slots.step {s s' : State} (h : Slots s) (hs : Steps s s') : Slots s' := by
  obtain ⟨hinflight, hlimit⟩ := h
  cases hs with
  | call c =>
    have hphase : (c.phase s.nextTask).slot = 0 ∧ (c.phase s.nextTask).cleanup = 0 := by
      cases c <;> exact ⟨rfl, rfl⟩
    constructor <;> simp only [total_append, total_cons, total_nil, hphase.1, hphase.2] <;> omega
  | start j c hj =>
    have hphase : c.phase.slot = 1 ∧ c.phase.cleanup = 0 := by
      cases c <;> exact ⟨rfl, rfl⟩
    have hlength := List.length_eraseIdx_add_one (List.getElem?_eq_some_iff.mp hj).1
    constructor <;> simp only [total_append, total_cons, total_nil, hphase.1, hphase.2] <;> omega
  | move i a b sh hi hmove =>
    have hslot := total_set (w := Phase.slot) hi b
    have hclean := total_set (w := Phase.cleanup) hi b
    obtain ⟨hbalance, hmax, hgrow⟩ := hmove.slots (Slots.le_inflight ⟨hinflight, hlimit⟩ hi)
    constructor
    · dsimp only
      omega
    · dsimp only
      rw [hmax]
      rcases hgrow with hle | ⟨hfree, heq⟩ <;> omega

theorem Slots.quiet {s : State} (h : Slots s) (hinflight : s.shared.inflight = 0)
    (hpending : s.shared.pending = []) : Quiet s := by
  have hcount := h.inflight
  have hpool : s.shared.pool = [] := List.eq_nil_of_length_eq_zero (by omega)
  -- a thread that holds a capture holds a slot or a cleanup
  have hheld : ∀ a : Phase, a.slot = 0 → a.cleanup = 0 → a.held = [] ∧ a.isRunning = false := by
    intro a hslot hclean
    induction a with
    | notify next ih => exact ⟨(ih hslot hclean).1, rfl⟩
    | _ => simp_all [Phase.slot, Phase.cleanup, Phase.held, Phase.isRunning]
  have hactors : ∀ a ∈ s.actors, a.held = [] ∧ a.isRunning = false := by
    intro a ha
    have hslot := weight_le_total (w := Phase.slot) ha
    have hclean := weight_le_total (w := Phase.cleanup) ha
    exact hheld a (by omega) (by omega)
  refine ⟨?_, hpending, ?_⟩
  · exact List.countP_eq_zero.mpr fun a ha => by simp [(hactors a ha).2]
  · rw [State.held, hpending, hpool, List.nil_append, List.flatMap_nil, List.nil_append]
    exact List.flatMap_eq_nil_iff.mpr fun a ha => (hactors a ha).1

theorem Slots.running_le {s : State} (h : Slots s) : s.running ≤ s.shared.maxInflight := by
  have hcount : ∀ l : List Phase, l.countP Phase.isRunning ≤ total Phase.slot l := by
    intro l
    induction l with
    | nil => exact le_rfl
    | cons a l ih =>
      rw [List.countP_cons, total_cons]
      cases a <;> simp only [Phase.isRunning, Phase.slot, Bool.false_eq_true, if_false, if_true] <;>
        omega
  have := hcount s.actors
  have := h.limit
  unfold State.running
  omega

/-! ## Flags -/

/-- What the place of a thread says about the flags. -/
def Phase.Sound (s : Shared) : Phase → Prop
  | .unwind _ => s.submitFailed = true
  | .stopBegin max failed => failed = true → max = none
  | .stopSet max failed => s.stopBegun = true ∧ (failed = true → max = none)
  | .stopLoop max _ failed | .discard _ max _ failed =>
    s.stop = true ∧ (failed = true → max = none)
  | .releaseFailed => s.stop = true
  | .notify next => s.stop = true ∧ next.Sound s
  | _ => True

/-- Flags are never taken back. -/
structure Shared.Le (s s' : Shared) : Prop where
  stop : s.stop = true → s'.stop = true
  stopBegun : s.stopBegun = true → s'.stopBegun = true
  submitFailed : s.submitFailed = true → s'.submitFailed = true

theorem Phase.Sound.mono (hle : s.Le s') (h : a.Sound s) : a.Sound s' := by
  induction a with
  | unwind t => exact hle.submitFailed h
  | stopBegin max failed => exact h
  | stopSet max failed => exact ⟨hle.stopBegun h.1, h.2⟩
  | stopLoop max n failed => exact ⟨hle.stop h.1, h.2⟩
  | discard t max n failed => exact ⟨hle.stop h.1, h.2⟩
  | releaseFailed => exact hle.stop h
  | notify next ih => exact ⟨hle.stop h.1, ih h.2⟩
  | _ => trivial

theorem Moves.le (h : Moves s a s' b) : s.Le s' := by
  cases h with
  | @release _ next hr =>
    obtain ⟨d, hd⟩ := releaseSlot_fst s next
    rw [hd]
    exact ⟨id, id, id⟩
  | submitThrew t => exact ⟨id, id, fun _ => rfl⟩
  | stopBegin max failed => exact ⟨id, fun _ => rfl, id⟩
  | stopSet max failed => exact ⟨fun _ => rfl, id, id⟩
  | _ => exact ⟨id, id, id⟩

theorem sound_afterStop {max : Option ℕ} {failed : Bool} (empty : Bool)
    (hstop : s.stop = true) : (afterStop max failed empty).Sound s := by
  cases failed with
  | true => exact hstop
  | false =>
    cases empty with
    | true => trivial
    | false => exact fun h => absurd h Bool.false_ne_true

theorem Moves.sound (h : Moves s a s' b) (ha : a.Sound s)
    (hbegun : s.stop = true → s.stopBegun = true) :
    b.Sound s' ∧ (s'.stop = true → s'.stopBegun = true) := by
  have hle := h.le
  cases h with
  | @release _ next hr =>
    have hnext : next.Sound s := by
      cases hr with
      | drained max n failed _ => exact sound_afterStop true ha.1
      | limit n failed _ => exact sound_afterStop false ha.1
      | _ => trivial
    have hbegun' : (releaseSlot s next).1.stop = true → (releaseSlot s next).1.stopBegun = true := by
      obtain ⟨d, hd⟩ := releaseSlot_fst s next
      rw [hd]
      exact hbegun
    refine ⟨?_, hbegun'⟩
    rcases releaseSlot_cases s next with ⟨hr, -⟩ | ⟨⟨-, -, hstop, -⟩, hr⟩ <;> rw [hr] at hle ⊢
    · exact hnext.mono hle
    · exact ⟨hstop, hnext.mono hle⟩
  | check y _ _ => cases y <;> exact ⟨trivial, hbegun⟩
  | submitThrew t => exact ⟨rfl, hbegun⟩
  | unwind t => exact ⟨fun _ => rfl, hbegun⟩
  | stopBegin max failed => exact ⟨⟨rfl, ha⟩, fun _ => rfl⟩
  | stopSet max failed => exact ⟨⟨rfl, ha.2⟩, fun _ => ha.1⟩
  | pop max n t rest failed _ => exact ⟨ha, hbegun⟩
  | discard max n t failed => exact ⟨ha, hbegun⟩
  | notify next => exact ⟨ha.2.mono hle, hbegun⟩
  | _ => exact ⟨trivial, hbegun⟩

structure Flags (s : State) : Prop where
  begun : s.shared.stop = true → s.shared.stopBegun = true
  sound : ∀ a ∈ s.actors, a.Sound s.shared

theorem Flags.step {s s' : State} (h : Flags s) (hs : Steps s s') : Flags s' := by
  cases hs with
  | call c =>
    refine ⟨h.begun, fun a ha => ?_⟩
    rcases List.mem_append.mp ha with ha | ha
    · exact h.sound a ha
    · rw [List.mem_singleton.mp ha]
      cases c with
      | requestStop max => exact fun h => absurd h Bool.false_ne_true
      | _ => trivial
  | start j c hj =>
    refine ⟨h.begun, fun a ha => ?_⟩
    rcases List.mem_append.mp ha with ha | ha
    · refine Phase.Sound.mono ?_ (h.sound a ha)
      exact ⟨id, id, id⟩
    · rw [List.mem_singleton.mp ha]
      cases c <;> trivial
  | move i a b sh hi hmove =>
    obtain ⟨hb, hbegun⟩ := hmove.sound (h.sound a (List.mem_of_getElem? hi)) h.begun
    refine ⟨hbegun, fun c hc => ?_⟩
    rcases List.mem_or_eq_of_mem_set hc with hc | rfl
    · exact (h.sound c hc).mono hmove.le
    · exact hb

/-! ## Tasks -/

/-- One, if a task is the one that is counted. -/
def ind (t x : ℕ) : ℕ := if t = x then 1 else 0

theorem count_cons_ind (t x : ℕ) (l : List ℕ) : (t :: l).count x = l.count x + ind t x := by
  rw [List.count_cons, ind]
  simp

theorem count_concat_ind (t x : ℕ) (l : List ℕ) : (l ++ [t]).count x = l.count x + ind t x := by
  rw [List.count_append, count_cons_ind, List.count_nil, Nat.zero_add]

section Weights

variable (x : ℕ)

/-- The captures of task `x` that have not been called. -/
def Phase.fresh : Phase → ℕ
  | .invoke t _ | .submit t | .unwind t | .discard t .. => ind t x
  | .notify next => next.fresh
  | _ => 0

/-- All captures of task `x`. -/
def Phase.holds : Phase → ℕ
  | .invoke t _ | .running t _ | .destroy t _ | .submit t | .unwind t | .discard t .. => ind t x
  | .notify next => next.holds
  | _ => 0

/-- Calls that still offer task `x`. -/
def Phase.offers : Phase → ℕ
  | .enqueue t | .schedule t => ind t x
  | .notify next => next.offers
  | _ => 0

def Closure.fresh : Closure → ℕ
  | .task t => ind t x
  | .next => 0

theorem weights_afterStop (max : Option ℕ) (failed empty : Bool) :
    (afterStop max failed empty).fresh x = 0 ∧ (afterStop max failed empty).holds x = 0 ∧
      (afterStop max failed empty).offers x = 0 := by
  cases failed <;> cases empty <;> exact ⟨rfl, rfl, rfl⟩

theorem Releases.weights {s : Shared} {a next : Phase} (h : Releases s a next) :
    (a.fresh x = 0 ∧ a.holds x = 0 ∧ a.offers x = 0) ∧
      next.fresh x = 0 ∧ next.holds x = 0 ∧ next.offers x = 0 := by
  cases h with
  | drained max n failed _ => exact ⟨⟨rfl, rfl, rfl⟩, weights_afterStop x max failed true⟩
  | limit n failed _ => exact ⟨⟨rfl, rfl, rfl⟩, weights_afterStop x (some n) failed false⟩
  | _ => exact ⟨⟨rfl, rfl, rfl⟩, rfl, rfl, rfl⟩

end Weights

/-- Where task `x` goes in a step. -/
theorem Moves.tasks (h : Moves s a s' b) (x : ℕ) :
    s'.pending.count x + total (Closure.fresh x) s'.pool + b.holds x + s'.destroyed.count x +
        s.accepted.count x =
      s.pending.count x + total (Closure.fresh x) s.pool + a.holds x + s.destroyed.count x +
        s'.accepted.count x ∧
    s'.accepted.count x + b.offers x ≤ s.accepted.count x + a.offers x ∧
    s'.ran.count x + s'.pending.count x + total (Closure.fresh x) s'.pool + b.fresh x +
        s.accepted.count x ≤
      s.ran.count x + s.pending.count x + total (Closure.fresh x) s.pool + a.fresh x +
        s'.accepted.count x := by
  cases h with
  | @release _ next hr =>
    obtain ⟨⟨ha₁, ha₂, ha₃⟩, hn₁, hn₂, hn₃⟩ := hr.weights x
    obtain ⟨d, hd⟩ := releaseSlot_fst s next
    rw [hd, weight_releaseSlot (w := Phase.fresh x) (fun _ => rfl),
      weight_releaseSlot (w := Phase.holds x) (fun _ => rfl),
      weight_releaseSlot (w := Phase.offers x) (fun _ => rfl), ha₁, ha₂, ha₃, hn₁, hn₂, hn₃]
    exact ⟨rfl, le_rfl, le_rfl⟩
  | check y _ _ => cases y <;> exact ⟨rfl, le_rfl, le_rfl⟩
  | refuse t ha =>
    rcases ha with rfl | rfl <;> exact ⟨rfl, Nat.le_add_right _ _, le_rfl⟩
  | reserve t ha _ _ =>
    rcases ha with rfl | rfl <;>
    · refine ⟨?_, ?_, ?_⟩ <;>
        simp only [Phase.fresh, Phase.holds, Phase.offers, count_cons_ind] <;> omega
  | notify next => exact ⟨rfl, le_rfl, le_rfl⟩
  | claim t rest y _ hpending | pop max n t rest failed hpending =>
    refine ⟨?_, ?_, ?_⟩ <;>
      simp only [hpending, Phase.fresh, Phase.holds, Phase.offers, count_cons_ind] <;> omega
  | _ =>
    refine ⟨?_, ?_, ?_⟩ <;>
      simp only [Phase.fresh, Phase.holds, Phase.offers, count_cons_ind, count_concat_ind,
        total_append, total_cons, total_nil, Closure.fresh] <;> omega

/-- No task is dropped before a stop is requested or a submission fails. -/
theorem Moves.conserves (h : Moves s a s' b) (ha : a.Sound s)
    (hstop : s.stop = true → s.stopBegun = true) (hbegun : s'.stopBegun = false)
    (hfailed : s'.submitFailed = false) (x : ℕ) :
    s'.ran.count x + s'.pending.count x + total (Closure.fresh x) s'.pool + b.fresh x +
        s.accepted.count x =
      s.ran.count x + s.pending.count x + total (Closure.fresh x) s.pool + a.fresh x +
        s'.accepted.count x := by
  cases h with
  | @release _ next hr =>
    obtain ⟨⟨ha₁, -, -⟩, hn₁, -, -⟩ := hr.weights x
    obtain ⟨d, hd⟩ := releaseSlot_fst s next
    rw [hd, weight_releaseSlot (w := Phase.fresh x) (fun _ => rfl), ha₁, hn₁]
  | check y _ _ => cases y <;> rfl
  | refuse t ha => rcases ha with rfl | rfl <;> rfl
  | reserve t ha _ _ =>
    rcases ha with rfl | rfl <;>
    · simp only [Phase.fresh, count_cons_ind]
      omega
  | notify next => rfl
  | skip t y hs => exact absurd (hstop hs) (by simp [hbegun])
  | unwind t => exact absurd ha (by simp [Phase.Sound, show s.submitFailed = false from hfailed])
  | discard max n t failed =>
    exact absurd (hstop ha.1) (by simp [show s.stopBegun = false from hbegun])
  | claim t rest y _ hpending | pop max n t rest failed hpending =>
    simp only [hpending, Phase.fresh, count_cons_ind]
    omega
  | _ =>
    simp only [Phase.fresh, count_cons_ind, count_concat_ind, total_append, total_cons, total_nil,
      Closure.fresh] <;> omega

/-- **Where the tasks are.** Every capture of an accepted task is held or destroyed, and a task
    that has run is nowhere to be called again. -/
structure Tasks (s : State) : Prop where
  captures : ∀ x, s.shared.pending.count x + total (Closure.fresh x) s.shared.pool +
    total (Phase.holds x) s.actors + s.shared.destroyed.count x = s.shared.accepted.count x
  once : ∀ x, s.shared.accepted.count x + total (Phase.offers x) s.actors ≤ 1
  known : ∀ x, s.nextTask ≤ x → s.shared.accepted.count x + total (Phase.offers x) s.actors = 0
  ran : ∀ x, s.shared.ran.count x + s.shared.pending.count x +
    total (Closure.fresh x) s.shared.pool + total (Phase.fresh x) s.actors ≤
      s.shared.accepted.count x
  conserved : s.shared.stopBegun = false → s.shared.submitFailed = false → ∀ x,
    s.shared.ran.count x + s.shared.pending.count x + total (Closure.fresh x) s.shared.pool +
      total (Phase.fresh x) s.actors = s.shared.accepted.count x

theorem Tasks.step {s s' : State} (h : Tasks s) (hflags : Flags s) (hs : Steps s s') :
    Tasks s' := by
  obtain ⟨hcaptures, honce, hknown, hran, hconserved⟩ := h
  cases hs with
  | call c =>
    have hphase : ∀ x, (c.phase s.nextTask).fresh x = 0 ∧ (c.phase s.nextTask).holds x = 0 ∧
        (c.phase s.nextTask).offers x ≤ ind s.nextTask x := by
      intro x
      cases c <;> exact ⟨rfl, rfl, by simp [Call.phase, Phase.offers]⟩
    constructor
    · intro x
      simp only [total_append, total_cons, total_nil, (hphase x).2.1]
      exact hcaptures x
    · intro x
      have hoffers := (hphase x).2.2
      simp only [total_append, total_cons, total_nil]
      by_cases hx : s.nextTask = x
      · have hzero := hknown x hx.le
        rw [ind, if_pos hx] at hoffers
        omega
      · have hone := honce x
        rw [ind, if_neg hx] at hoffers
        omega
    · intro x hx
      have hoffers := (hphase x).2.2
      have hzero := hknown x (by dsimp only at hx; omega)
      rw [ind, if_neg (by dsimp only at hx; omega)] at hoffers
      simp only [total_append, total_cons, total_nil]
      omega
    · intro x
      simp only [total_append, total_cons, total_nil, (hphase x).1]
      exact hran x
    · intro hbegun hfailed x
      simp only [total_append, total_cons, total_nil, (hphase x).1]
      exact hconserved hbegun hfailed x
  | start j c hj =>
    have hphase : ∀ x, c.phase.fresh x = c.fresh x ∧ c.phase.holds x = c.fresh x ∧
        c.phase.offers x = 0 := by
      intro x
      cases c <;> exact ⟨rfl, rfl, rfl⟩
    have hpool := fun x => total_eraseIdx (w := Closure.fresh x) hj
    constructor
    · intro x
      have := hpool x
      have := hcaptures x
      simp only [total_append, total_cons, total_nil, (hphase x).2.1]
      omega
    · intro x
      simp only [total_append, total_cons, total_nil, (hphase x).2.2]
      exact honce x
    · intro x hx
      simp only [total_append, total_cons, total_nil, (hphase x).2.2]
      exact hknown x hx
    · intro x
      have := hpool x
      have := hran x
      simp only [total_append, total_cons, total_nil, (hphase x).1]
      omega
    · intro hbegun hfailed x
      have := hpool x
      have := hconserved hbegun hfailed x
      simp only [total_append, total_cons, total_nil, (hphase x).1]
      omega
  | move i a b sh hi hmove =>
    have hset := fun w : Phase → ℕ => total_set (w := w) hi b
    constructor
    · intro x
      have := hset (Phase.holds x)
      have := hcaptures x
      have := (hmove.tasks x).1
      dsimp only
      omega
    · intro x
      have := hset (Phase.offers x)
      have := honce x
      have := (hmove.tasks x).2.1
      dsimp only
      omega
    · intro x hx
      have := hset (Phase.offers x)
      have := hknown x hx
      have := (hmove.tasks x).2.1
      dsimp only
      omega
    · intro x
      have := hset (Phase.fresh x)
      have := hran x
      have := (hmove.tasks x).2.2
      dsimp only
      omega
    · intro hbegun hfailed x
      have hle := hmove.le
      have hbegun₀ : s.shared.stopBegun = false := by
        by_contra hne
        exact absurd (hle.stopBegun (by simpa using hne)) (by simpa using hbegun)
      have hfailed₀ : s.shared.submitFailed = false := by
        by_contra hne
        exact absurd (hle.submitFailed (by simpa using hne)) (by simpa using hfailed)
      have := hset (Phase.fresh x)
      have := hconserved hbegun₀ hfailed₀ x
      have := hmove.conserves (hflags.sound a (List.mem_of_getElem? hi)) hflags.begun hbegun
        hfailed x
      dsimp only
      omega

end Sirius.Exec.ScopedDispatcher
