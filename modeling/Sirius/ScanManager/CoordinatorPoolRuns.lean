import Sirius.ScanManager.CoordinatorPool

/-!
# Runs of the pool of coordinator workers

What holds in every run of `CoordinatorPool.step`.

* `Inv`, `inv_step`: what every step preserves.
* `selections_lt`: how often others are selected before an entry that is runnable.
* `pool_steps_every_wake`: one step at a time, no wake is lost, stale wakeups, and when a
  worker returns.
-/

namespace Sirius.ScanManager.CoordinatorPool

open Sirius.Common

/-! ## The invariant -/

/-- `stop` is in progress. -/
def Lifecycle.closing : Lifecycle → Bool
  | .stopping _ | .notifying _ _ | .joining => true
  | .idle | .starting | .aborting => false

structure Inv (s : Pool) : Prop where
  table : Table s.entry s.nextGeneration s.log
  roster : Roster s.entry s.stopping s.worker
  cursor : s.cursor = 0 ∨ s.cursor < s.entries.length
  manned : ∀ i e, s.entry i = some e → e.finished = false → s.workers ≠ []
  starting : s.lifecycle = .starting → s.stopping = false ∧ s.workerCount ≠ 0
  aborting : s.lifecycle = .aborting → s.entries = []
  closing : s.lifecycle.closing = true → s.stopping = true
  full : s.stopping = false → s.workers.length = s.workerCount ∨ s.entries = []
  notifying : ∀ i g, s.lifecycle = .notifying i g →
    ∃ e, s.entry i = some e ∧ e.generation = g ∧ e.stopNotifying = true

theorem inv_create (workers : ℕ) : Inv (create workers) := by
  refine ⟨⟨?_, ?_, ?_, ?_, ?_, ?_, .nil⟩, ⟨?_, ?_, ?_, ?_, ?_⟩, .inl rfl, ?_, ?_, ?_, ?_, ?_, ?_⟩ <;>
    simp [create, owed, Pool.entry, Pool.worker, Lifecycle.closing]

variable {s s' : Pool} {w i g : ℕ}

theorem worker_setWorker_notifyAll {p q : Worker} (h : s.worker w = some p) (hq : q ≠ .asleep) :
    ((s.setWorker w q).notifyAll).worker = Function.update (notified s.worker) w (some q) := by
  funext v
  rw [Pool.worker_notifyAll, Pool.worker_setWorker h]
  by_cases hv : v = w
  · subst hv
    simp [hq]
  · simp [Function.update_of_ne hv, notified]

/-- A step that leaves the entries, the log and the cursor alone. -/
theorem Inv.frame (h : Inv s) (hentries : s'.entries = s.entries)
    (hgeneration : s'.nextGeneration = s.nextGeneration) (hlog : s'.log = s.log)
    (hcursor : s'.cursor = s.cursor) (hroster : Roster s.entry s'.stopping s'.worker)
    (hmanned : s'.workers = [] → ∀ i e, s.entry i = some e → e.finished = true)
    (hstarting : s'.lifecycle = .starting → s'.stopping = false ∧ s'.workerCount ≠ 0)
    (haborting : s'.lifecycle = .aborting → s.entries = [])
    (hclosing : s'.lifecycle.closing = true → s'.stopping = true)
    (hfull : s'.stopping = false → s'.workers.length = s'.workerCount ∨ s.entries = [])
    (hnotifying : ∀ i g, s'.lifecycle = .notifying i g → s.lifecycle = .notifying i g) :
    Inv s' := by
  have hentry : s'.entry = s.entry := by
    funext i
    simp [Pool.entry, hentries]
  refine ⟨?_, hentry ▸ hroster, ?_, ?_, hstarting, ?_, hclosing, ?_, ?_⟩
  · rw [hentry, hgeneration, hlog]
    exact h.table
  · rw [hcursor, hentries]
    exact h.cursor
  · intro i e he hfinished hnil
    rw [hentry] at he
    rw [hmanned hnil i e he] at hfinished
    cases hfinished
  · exact fun hl => hentries ▸ haborting hl
  · exact fun hs => hentries ▸ hfull hs
  · intro i g hl
    rw [hentry]
    exact h.notifying i g (hnotifying i g hl)

variable {e e' : Entry}

/-- A step that changes the entry at one index. -/
theorem Inv.change (h : Inv s) (hi : s.entry i = some e)
    (hfinished : e.finished = true → e'.finished = true)
    (hentry : s'.entry = Function.update s.entry i (some e'))
    (hlength : s'.entries.length = s.entries.length)
    (hworkers : s'.workers.length = s.workers.length) (hcount : s'.workerCount = s.workerCount)
    (hstopping : s'.stopping = s.stopping)
    (hcursor : s'.cursor = s.cursor ∨ s'.cursor < s.entries.length)
    (htable : Table (Function.update s.entry i (some e')) s'.nextGeneration s'.log)
    (hroster : Roster (Function.update s.entry i (some e')) s.stopping s'.worker)
    (hstarting : s'.lifecycle = .starting → s.lifecycle = .starting)
    (haborting : s'.lifecycle ≠ .aborting)
    (hclosing : s'.lifecycle.closing = true → s.lifecycle.closing = true)
    (hnotifying : ∀ j g, s'.lifecycle = .notifying j g →
      ∃ x, Function.update s.entry i (some e') j = some x ∧ x.generation = g ∧
        x.stopNotifying = true) : Inv s' := by
  refine ⟨hentry ▸ htable, ?_, ?_, ?_, ?_, fun hl => absurd hl haborting, ?_, ?_,
    hentry ▸ hnotifying⟩
  · rw [hentry, hstopping]
    exact hroster
  · rw [hlength]
    rcases hcursor with hc | hc
    · rw [hc]
      exact h.cursor
    · exact .inr hc
  · intro j x hx hxf hnil
    have hnone : s.workers = [] := List.eq_nil_of_length_eq_zero (by rw [← hworkers, hnil]; rfl)
    rw [hentry] at hx
    rcases update_eq_some.mp hx with ⟨-, rfl⟩ | ⟨-, hx'⟩
    · refine h.manned i e hi ?_ hnone
      by_contra hne
      rw [hfinished (by simpa using hne)] at hxf
      cases hxf
    · exact h.manned j x hx' hxf hnone
  · intro hl
    rw [hstopping, hcount]
    exact h.starting (hstarting hl)
  · exact fun hl => hstopping.trans (h.closing (hclosing hl))
  · intro hs
    rw [hworkers, hcount]
    refine (h.full (hstopping ▸ hs)).imp_right fun hnil => ?_
    exact List.eq_nil_of_length_eq_zero (by rw [hlength, hnil]; rfl)

/-- A registered entry rules out that the start of the workers failed. -/
theorem Inv.not_aborting (h : Inv s) (hi : s.entry i = some e) : s.lifecycle ≠ .aborting := by
  intro hl
  simp [Pool.entry, h.aborting hl] at hi

/-- The entry that `stop` notifies stays where it is. -/
theorem Inv.notifying_of_change (h : Inv s) (hi : s.entry i = some e)
    (hgeneration : e'.generation = e.generation)
    (hstop : e.stopNotifying = true → e'.stopNotifying = true) (j g : ℕ)
    (hl : s.lifecycle = .notifying j g) :
    ∃ x, Function.update s.entry i (some e') j = some x ∧ x.generation = g ∧
      x.stopNotifying = true := by
  obtain ⟨x, hx, hxg, hxs⟩ := h.notifying j g hl
  by_cases hj : j = i
  · subst hj
    rw [hi, Option.some.injEq] at hx
    subst hx
    exact ⟨e', Function.update_self .., hgeneration.trans hxg, hstop hxs⟩
  · exact ⟨x, update_eq_some.mpr (.inr ⟨hj, hx⟩), hxg, hxs⟩

/-- A section that changes an entry outside of its steps, and notifies. -/
theorem Inv.notify {log' : List Event} (h : Inv s)
    (hi : s.entry i = some e) (e' : Entry) (hgeneration : e'.generation = e.generation)
    (hexecuting : e'.executing = e.executing) (hfinished : e'.finished = e.finished)
    (htable : Table (Function.update s.entry i (some e')) s.nextGeneration log') (l : Lifecycle)
    (hl : l = s.lifecycle ∧ (e.stopNotifying = true → e'.stopNotifying = true) ∨
      (∃ j, l = .stopping j) ∧ s.lifecycle.closing = true) :
    Inv { (s.set i e').notifyAll with lifecycle := l, log := log' } := by
  have hworker : Pool.worker { (s.set i e').notifyAll with lifecycle := l, log := log' } =
      notified s.worker := funext fun w => Pool.worker_notifyAll _ w
  refine Inv.change h hi (fun hfin => hfinished.trans hfin) (Pool.entry_set hi e')
    (by simp [Pool.set, Pool.notifyAll]) (by simp [Pool.set, Pool.notifyAll]) rfl rfl (.inl rfl)
    htable ?_ ?_ ?_ ?_ ?_
  · rw [hworker]
    refine h.roster.notify.change hi hgeneration hexecuting (fun hfin => hfinished.trans hfin) ?_
    rintro ⟨w, hw⟩
    exact absurd hw (notified_ne_asleep w)
  all_goals rcases hl with ⟨rfl, hstop⟩ | ⟨⟨j, rfl⟩, hclosing⟩
  · exact id
  · simp
  · exact h.not_aborting hi
  · simp
  · exact id
  · exact fun _ => hclosing
  · exact h.notifying_of_change hi hgeneration hstop
  · simp

theorem inv_wake (h : Inv s) (index generation : ℕ) : Inv (wake s index generation) := by
  unfold wake
  cases hi : s.entry index with
  | none => exact h
  | some e =>
    simp only
    split_ifs with hstale
    · exact h
    · simp only [not_or, not_not, Bool.not_eq_true] at hstale
      obtain ⟨rfl, hfin⟩ := hstale
      exact h.notify hi { e with runnable := true, deadline := none } rfl rfl rfl
        (h.table.wake hi rfl rfl hfin rfl) s.lifecycle (.inl ⟨rfl, id⟩)

theorem inv_start (h : Inv s) (hw : s.worker w = some .scanning) (hi : s.entry i = some e)
    (hfin : e.finished = false) (hidle : e.executing = false) : Inv (start s w i e) := by
  have hpos : 0 < s.entries.length := lt_of_le_of_lt (Nat.zero_le i) (Pool.entry_lt hi)
  refine h.change hi (by simp [hfin])
    (Pool.entry_set hi { e with executing := true, runnable := false, deadline := none })
    (by simp [start, Pool.set, Pool.setWorker, Pool.record])
    (by simp [start, Pool.set, Pool.setWorker, Pool.record]) rfl rfl (.inr (Nat.mod_lt _ hpos))
    (h.table.start hi rfl rfl hfin) ?_ id (h.not_aborting hi) id (h.notifying_of_change hi rfl id)
  have hworker : (start s w i e).worker =
      Function.update s.worker w (some (.stepping i e.generation)) :=
    Pool.worker_setWorker (by exact hw) _
  rw [hworker]
  exact h.roster.start hw hi rfl hidle rfl hfin

/-- What a worker that selects nothing finds. -/
theorem select_none {now : ℤ} (h : Inv s) (hscan : (scan s now).selected = none) :
    (select s w now = s.setWorker w .returned ∧ s.stopping = true ∧
        ∀ i e, s.entry i = some e → e.finished = true) ∨
      select s w now = s.setWorker w .asleep ∧
        ∀ i e, s.entry i = some e → e.runnable = true → e.executing = true := by
  obtain ⟨hno, hall⟩ := scan_none hscan h.cursor
  simp only [select, hscan]
  split_ifs with hreturn
  · exact .inl ⟨rfl, hreturn.1, hall (by simpa using hreturn.2)⟩
  · refine .inr ⟨rfl, fun i e he hrun => ?_⟩
    by_contra hidle
    have hfin : e.finished = false := by
      by_contra hne
      rw [(h.table.quiet i e he (by simpa using hne)).2] at hrun
      cases hrun
    exact hno i e he ⟨hfin, by simpa using hidle, by simp [Entry.due, hrun]⟩

theorem setWorker_ne_nil {p q : Worker} (hw : s.worker w = some p) :
    (s.setWorker w q).workers ≠ [] := by
  have hlt : w < s.workers.length := (List.getElem?_eq_some_iff.mp hw).1
  refine List.ne_nil_of_length_pos ?_
  simp only [Pool.setWorker, List.length_set]
  omega

/-- A worker moves between places that are not in a step. -/
theorem inv_move (h : Inv s) {p q : Worker} (hw : s.worker w = some p)
    (hp : ∀ i g, p ≠ .stepping i g) (hq : ∀ i g, q ≠ .stepping i g)
    (hasleep : q = .asleep → ∀ i e, s.entry i = some e → e.runnable = true → e.executing = true)
    (hreturned : q = .returned →
      s.stopping = true ∧ ∀ i e, s.entry i = some e → e.finished = true) :
    Inv (s.setWorker w q) := by
  refine h.frame rfl rfl rfl rfl ?_ (fun hnil => absurd hnil (setWorker_ne_nil hw)) h.starting
    h.aborting h.closing ?_ fun _ _ hl => hl
  · rw [Pool.worker_setWorker hw]
    exact h.roster.move hw hp hq hasleep hreturned
  · simpa [Pool.setWorker] using h.full

theorem inv_select (h : Inv s) (hw : s.worker w = some .scanning) (now : ℤ) :
    Inv (select s w now) := by
  cases hscan : (scan s now).selected with
  | some i =>
    obtain ⟨e, hi, ⟨hfin, hidle, -⟩, -⟩ := scan_some hscan h.cursor
    simp only [select, hscan, hi]
    exact inv_start h hw hi hfin hidle
  | none =>
    rcases select_none h hscan (w := w) with ⟨heq, hstop, hall⟩ | ⟨heq, hbusy⟩
    · rw [heq]
      exact inv_move h hw (by simp) (by simp) (by simp) fun _ => ⟨hstop, hall⟩
    · rw [heq]
      exact inv_move h hw (by simp) (by simp) (fun _ => hbusy) (by simp)

theorem inv_complete (h : Inv s) (hw : s.worker w = some (.stepping i g))
    (hi : s.entry i = some e) (result : StepResult) : Inv (complete s w i g e result) := by
  obtain ⟨x, hx, rfl, hexecuting⟩ := h.roster.busy w i g hw
  rw [hi, Option.some.injEq] at hx
  subst hx
  have hfin : e.finished = false := by
    by_contra hne
    rw [(h.table.quiet i e hi (by simpa using hne)).1] at hexecuting
    cases hexecuting
  have hstop : (e.complete result).generation = e.generation ∧
      (e.complete result).stopNotifying = e.stopNotifying ∧
      (e.complete result).executing = false := by
    unfold Entry.complete
    grind
  refine h.change hi (by simp [hfin]) (Pool.entry_set hi (e.complete result))
    (by simp [complete, Pool.set, Pool.setWorker, Pool.notifyAll, Pool.record])
    (by simp [complete, Pool.set, Pool.setWorker, Pool.notifyAll, Pool.record]) rfl rfl (.inl rfl)
    (h.table.complete hi hfin result) ?_ id (h.not_aborting hi) id
    (h.notifying_of_change hi hstop.1 fun hs => hstop.2.1.trans hs)
  have hworker : (complete s w i e.generation e result).worker =
      Function.update (notified s.worker) w (some .scanning) :=
    worker_setWorker_notifyAll (s := s.set i (e.complete result)) hw (by simp)
  rw [hworker]
  exact h.roster.notify.complete notified_ne_asleep ((notified_eq_some (by simp)).mpr ⟨hw, by simp⟩)
    hi hstop.1 hstop.2.2 (by simp [hfin])

theorem inv_stopNext (h : Inv s) (hl : s.lifecycle = .stopping i) : Inv (stopNext s i) := by
  have hskip : ∀ l, l = .joining ∨ l = .stopping (i + 1) → Inv { s with lifecycle := l } := by
    intro l hl'
    have hclosing : s.stopping = true := h.closing (by rw [hl]; rfl)
    refine h.frame rfl rfl rfl rfl h.roster (fun hnil j x hx => ?_) ?_ ?_ (fun _ => hclosing)
      h.full ?_
    · by_contra hne
      exact h.manned j x hx (by simpa using hne) hnil
    all_goals rcases hl' with rfl | rfl <;> simp
  unfold stopNext
  split_ifs with hend
  · exact hskip _ (.inl rfl)
  · cases hi : s.entry i with
    | none => exact hskip _ (.inr rfl)
    | some e =>
      simp only
      split_ifs with hfin
      · exact hskip _ (.inr rfl)
      · rw [Bool.not_eq_true] at hfin
        refine h.change hi (by simp [hfin]) (Pool.entry_set hi { e with stopNotifying := true })
          (by simp [Pool.set]) (by simp [Pool.set]) rfl rfl (.inl rfl) ?_ ?_ (by simp) (by simp)
          (by rw [hl]; exact id) ?_
        · refine h.table.change hi rfl (by simp [hfin]) (by simp [hfin]) (fun g hg => .inl hg)
            (fun g hg => hg) (fun g hg _ => hg) (fun howed => ?_) h.table.last
          obtain ⟨j, x, hx, hxg, hrest⟩ := h.table.pending _ howed
          obtain rfl := h.table.unique j i x e hx hi hxg
          rw [hi, Option.some.injEq] at hx
          subst hx
          exact hrest
        · exact h.roster.change hi rfl rfl (by simp [hfin]) fun _ hrun => hrun
        · intro j g hl'
          cases hl'
          exact ⟨_, Function.update_self .., rfl, rfl⟩

theorem inv_stopNotified (h : Inv s) (hi : s.entry i = some e)
    (hl : s.lifecycle.closing = true) : Inv (stopNotified s i e) := by
  unfold stopNotified
  simp only
  split_ifs with hfin
  · obtain ⟨hidle, hquiet⟩ := h.table.quiet i e hi hfin
    refine h.notify hi
      { e with stopNotifying := false, runnable := !e.finished || e.runnable } rfl rfl rfl ?_
      (.stopping (i + 1)) (.inr ⟨⟨_, rfl⟩, hl⟩)
    refine h.table.change hi rfl ?_ id (fun g hg => .inl hg) (fun g hg => hg)
      (fun g hg _ => hg) (fun howed => ?_) h.table.last
    · simp [hfin, hidle, hquiet]
    · obtain ⟨j, x, hx, hxg, -, hxf⟩ := h.table.pending _ howed
      obtain rfl := h.table.unique j i x e hx hi hxg
      rw [hi, Option.some.injEq] at hx
      rw [← hx, hfin] at hxf
      cases hxf
  · rw [Bool.not_eq_true] at hfin
    exact h.notify hi
      { e with stopNotifying := false, runnable := !e.finished || e.runnable } rfl rfl rfl
      (h.table.wake hi rfl rfl hfin (by simp [hfin])) (.stopping (i + 1)) (.inr ⟨⟨_, rfl⟩, hl⟩)

theorem inv_register (h : Inv s) (hl : s.lifecycle = .starting)
    (hfull : s.workers.length = s.workerCount) : Inv (register s) := by
  obtain ⟨i, hi, hentry, hlength⟩ := register_entry s
  obtain ⟨hstop, hcount⟩ := h.starting hl
  refine ⟨?_, ?_, ?_, ?_, ?_, ?_, ?_, ?_, ?_⟩
  · rw [hentry]
    exact h.table.register hi
  · rw [hentry]
    exact h.roster.register hstop hi rfl rfl
  · change s.cursor = 0 ∨ s.cursor < (register s).entries.length
    have := h.cursor
    omega
  · intro j x hx hxf hnil
    have hnil' : s.workers = [] := hnil
    rw [hnil', List.length_nil] at hfull
    exact hcount hfull.symm
  · simp [register]
  · simp [register]
  · simp [register, Lifecycle.closing]
  · exact fun _ => .inl hfull
  · simp [register]

theorem inv_destroy (h : Inv s) (hi : s.entry i = some e) (hfin : e.finished = true)
    (hidle : e.executing = false) (hquiet : e.stopNotifying = false) :
    Inv (({ s with entries := s.entries.set i none }).notifyAll.record
      (.destroyed e.generation)) := by
  have hentry : (({ s with entries := s.entries.set i none }).notifyAll.record
      (.destroyed e.generation)).entry = Function.update s.entry i none := Pool.entry_erase s i
  have hworker : (({ s with entries := s.entries.set i none }).notifyAll.record
      (.destroyed e.generation)).worker = notified s.worker :=
    funext fun w => Pool.worker_notifyAll _ w
  refine ⟨?_, ?_, ?_, ?_, h.starting, ?_, h.closing, ?_, ?_⟩
  · rw [hentry]
    exact h.table.destroy hi hfin
  · rw [hentry, hworker]
    exact h.roster.notify.destroy hi hidle
  · simpa [Pool.notifyAll, Pool.record] using h.cursor
  · intro j x hx hxf hnil
    rw [hentry] at hx
    refine h.manned j x (update_none_eq_some.mp hx).2 hxf ?_
    simpa [Pool.notifyAll, Pool.record] using hnil
  · exact fun hl => absurd hl (h.not_aborting hi)
  · simpa [Pool.notifyAll, Pool.record, ← List.length_eq_zero_iff] using h.full
  · intro j g hl
    obtain ⟨x, hx, hxg, hxs⟩ := h.notifying j g hl
    refine ⟨x, ?_, hxg, hxs⟩
    rw [hentry]
    refine update_none_eq_some.mpr ⟨?_, hx⟩
    rintro rfl
    rw [hi, Option.some.injEq] at hx
    rw [← hx, hquiet] at hxs
    cases hxs

theorem inv_step {a : Action} (h : Inv s) (hstep : step s a = some s') : Inv s' := by
  have hmanned : s.workers = [] → ∀ i e, s.entry i = some e → e.finished = true := by
    intro hnil i e hi
    by_contra hne
    exact h.manned i e hi (by simpa using hne) hnil
  cases a with
  | addBegin =>
    simp only [step, Option.ite_none_right_eq_some, Option.some.injEq] at hstep
    obtain ⟨⟨-, hstop, hcount⟩, rfl⟩ := hstep
    exact h.frame rfl rfl rfl rfl h.roster hmanned
      (fun _ => ⟨by simpa using hstop, hcount⟩) (by simp) (by simp [Lifecycle.closing]) h.full
      (by simp)
  | addThrows =>
    simp only [step, Option.ite_none_right_eq_some, Option.some.injEq] at hstep
    obtain ⟨-, rfl⟩ := hstep
    exact h.frame rfl rfl rfl rfl h.roster hmanned (by simp) (by simp)
      (by simp [Lifecycle.closing]) h.full (by simp)
  | spawn =>
    simp only [step, Option.ite_none_right_eq_some, Option.some.injEq] at hstep
    obtain ⟨⟨hl, hlt⟩, rfl⟩ := hstep
    have hempty : s.entries = [] := (h.full (h.starting hl).1).resolve_left hlt.ne
    refine h.frame rfl rfl rfl rfl ?_ (by simp) h.starting h.aborting h.closing
      (fun _ => .inr hempty) fun _ _ hl => hl
    refine h.roster.weaken id fun w p hp => ?_
    simp only [Pool.worker, List.getElem?_append, List.getElem?_singleton]
    grind
  | spawnFails =>
    simp only [step, Option.ite_none_right_eq_some, Option.some.injEq] at hstep
    obtain ⟨⟨hl, hlt⟩, rfl⟩ := hstep
    have hempty : s.entries = [] := (h.full (h.starting hl).1).resolve_left hlt.ne
    refine h.frame rfl rfl rfl rfl ?_ (fun hnil => hmanned (by simpa [Pool.notifyAll] using hnil))
      (by simp) (fun _ => hempty) (by simp [Lifecycle.closing]) (by simp) (by simp)
    exact h.roster.notify.weaken (fun _ => rfl) fun w p _ => by
      rw [← show s.notifyAll.worker w = notified s.worker w from Pool.worker_notifyAll s w]
      rfl
  | abortJoin =>
    simp only [step, Option.ite_none_right_eq_some, Option.some.injEq] at hstep
    obtain ⟨⟨hl, hall⟩, rfl⟩ := hstep
    have hempty := h.aborting hl
    refine h.frame rfl rfl rfl rfl ?_ (fun _ i e hi => ?_) (by simp) (by simp)
      (by simp [Lifecycle.closing]) (fun _ => .inr hempty) (by simp)
    · exact h.roster.join fun w p hw => hall p (List.mem_of_getElem? hw)
    · simp [Pool.entry, hempty] at hi
  | register =>
    simp only [step, Option.ite_none_right_eq_some, Option.some.injEq] at hstep
    obtain ⟨⟨hl, hfull⟩, rfl⟩ := hstep
    exact inv_register h hl hfull
  | wake index generation =>
    cases hstep
    exact inv_wake h index generation
  | select w now =>
    simp only [step, Option.ite_none_right_eq_some, Option.some.injEq] at hstep
    obtain ⟨hw, rfl⟩ := hstep
    exact inv_select h hw now
  | rouse w =>
    simp only [step, Option.ite_none_right_eq_some, Option.some.injEq] at hstep
    obtain ⟨hw, rfl⟩ := hstep
    exact inv_move h hw (by simp) (by simp) (by simp) (by simp)
  | complete w result =>
    simp only [step] at hstep
    split at hstep
    next i g hw =>
      obtain ⟨e, hi, rfl⟩ := Option.map_eq_some_iff.mp hstep
      exact inv_complete h hw hi result
    next => cases hstep
  | stopBegin =>
    simp only [step, Option.ite_none_right_eq_some, Option.some.injEq] at hstep
    obtain ⟨-, rfl⟩ := hstep
    refine h.frame rfl rfl rfl rfl ?_ (fun hnil => hmanned (by simpa [Pool.notifyAll] using hnil))
      (by simp) (by simp) (by simp) (by simp) (by simp)
    exact h.roster.notify.weaken (fun _ => rfl) fun w p _ => by
      rw [← show s.notifyAll.worker w = notified s.worker w from Pool.worker_notifyAll s w]
      rfl
  | stopNext =>
    simp only [step] at hstep
    split at hstep
    next i hl =>
      cases hstep
      exact inv_stopNext h hl
    next => cases hstep
  | stopNotified =>
    simp only [step] at hstep
    split at hstep
    next i g hl =>
      obtain ⟨e, hi, rfl⟩ := Option.map_eq_some_iff.mp hstep
      exact inv_stopNotified h hi (by rw [hl]; rfl)
    next => cases hstep
  | stopJoin =>
    simp only [step, Option.ite_none_right_eq_some, Option.some.injEq] at hstep
    obtain ⟨⟨hl, hall⟩, rfl⟩ := hstep
    have hstop : s.stopping = true := h.closing (by rw [hl]; rfl)
    refine h.frame rfl rfl rfl rfl ?_ (fun _ => ?_) (by simp) (by simp) (by simp [Lifecycle.closing])
      (by simp [hstop]) (by simp)
    · exact h.roster.join fun w p hw => hall p (List.mem_of_getElem? hw)
    · cases hworkers : s.workers with
      | nil => exact hmanned hworkers
      | cons p rest =>
        have hw : s.worker 0 = some .returned := by
          rw [Pool.worker, hworkers, List.getElem?_cons_zero, hall p (by simp [hworkers])]
        exact (h.roster.returned 0 hw).2
  | destroy index generation =>
    simp only [step] at hstep
    split at hstep
    next e hi =>
      split_ifs at hstep with hassert
      obtain ⟨rfl, hfin, hidle, hquiet⟩ := hassert
      cases hstep
      exact inv_destroy h hi hfin (by simpa using hidle) (by simpa using hquiet)
    next => cases hstep

variable {actions : List Action}

/-- **Every run keeps the invariant.** -/
theorem inv_run {workers : ℕ} (h : run step (create workers) actions = some s) : Inv s :=
  run_invariant (fun _ _ _ hs hstep => inv_step hs hstep) (inv_create workers) h

/-! ## No entry is passed over for ever -/

/-- The entry at `i` is runnable and waits for a worker. -/
def Waiting (s : Pool) (i g : ℕ) : Prop :=
  ∃ e, s.entry i = some e ∧ e.generation = g ∧ e.runnable = true ∧ e.executing = false ∧
    e.finished = false

/-- How many steps have started. -/
def starts (log : List Event) : ℕ :=
  log.countP fun event => match event with
    | .started _ => true
    | _ => false

/-- The entry goes on waiting, and what else is selected brings the cursor nearer to it. -/
structure Overtaken (s s' : Pool) (i g : ℕ) (new : List Event) : Prop where
  waiting : Waiting s' i g
  grows : s.entries.length ≤ s'.entries.length
  nearer : starts new + s'.distance i + s.entries.length ≤ s.distance i + s'.entries.length

theorem distance_eq (hcursor : s'.cursor = s.cursor)
    (hlength : s'.entries.length = s.entries.length) (i : ℕ) : s'.distance i = s.distance i := by
  simp only [Pool.distance, hcursor, hlength]

theorem Waiting.update {i j g : ℕ} (h : Waiting s i g)
    (hentry : s'.entry = Function.update s.entry j (some e'))
    (hself : j = i → ∀ e, s.entry i = some e → e.runnable = true → e.executing = false →
      e.finished = false → e'.generation = e.generation ∧ e'.runnable = true ∧
        e'.executing = false ∧ e'.finished = false) : Waiting s' i g := by
  obtain ⟨e, hi, hg, hrun, hidle, hfin⟩ := h
  by_cases hj : j = i
  · obtain ⟨hg', hrest⟩ := hself hj e hi hrun hidle hfin
    subst hj
    exact ⟨e', by rw [hentry, Function.update_self], hg'.trans hg, hrest⟩
  · exact ⟨e, by rw [hentry, Function.update_of_ne (Ne.symm hj), hi], hg, hrun, hidle, hfin⟩

/-- A step that selects nothing. -/
theorem Overtaken.of_same {new : List Event} (hwaiting : Waiting s' i g)
    (hcursor : s'.cursor = s.cursor) (hlength : s'.entries.length = s.entries.length)
    (hnew : starts new = 0) : Overtaken s s' i g new :=
  ⟨hwaiting, hlength.ge, by rw [hnew, distance_eq hcursor hlength, hlength]; omega⟩

/-- Selecting another entry brings the cursor nearer. -/
theorem overtaken_start (h : Inv s) {w i j g : ℕ} {now : ℤ}
    (hwaiting : Waiting s i g) (hscan : (scan s now).selected = some j) (hj : s.entry j = some e)
    (hne : j ≠ i) : Overtaken s (start s w j e) i g [.started e.generation] := by
  obtain ⟨x, hi, hg, hrun, hidle, hfin⟩ := hwaiting
  obtain ⟨-, -, -, hnear⟩ := scan_some hscan h.cursor
  have hle := hnear i x hi ⟨hfin, hidle, by simp [Entry.due, hrun]⟩
  have hlti := Pool.entry_lt hi
  have hltj := Pool.entry_lt hj
  have hcursor := h.cursor
  have hlength : (start s w j e).entries.length = s.entries.length := by
    simp [start, Pool.set, Pool.setWorker, Pool.record]
  have hentry : (start s w j e).entry = Function.update s.entry j _ := Pool.entry_set hj _
  refine ⟨?_, hlength.ge, ?_⟩
  · exact Waiting.update ⟨x, hi, hg, hrun, hidle, hfin⟩ hentry fun heq => absurd heq hne
  · have hnext : (start s w j e).cursor = (j + 1) % s.entries.length := rfl
    have hstarts : starts [.started e.generation] = 1 := rfl
    rw [hstarts, hlength]
    unfold Pool.distance at hle ⊢
    rw [hnext, hlength]
    by_cases hlast : j + 1 = s.entries.length
    · rw [hlast, Nat.mod_self]
      split_ifs at hle ⊢ <;> omega
    · rw [Nat.mod_eq_of_lt (by omega)]
      split_ifs at hle ⊢ <;> omega

theorem waiting_select (h : Inv s) {now : ℤ} (hwaiting : Waiting s i g) :
    ∃ new, (select s w now).log = new ++ s.log ∧
      (Event.started g ∈ new ∨ Overtaken s (select s w now) i g new) := by
  obtain ⟨x, hi, hg, hrun, hidle, hfin⟩ := hwaiting
  cases hscan : (scan s now).selected with
  | none =>
    exact absurd ⟨hfin, hidle, by simp [Entry.due, hrun]⟩ ((scan_none hscan h.cursor).1 i x hi)
  | some j =>
    obtain ⟨e, hj, -, -⟩ := scan_some hscan h.cursor
    simp only [select, hscan, hj]
    refine ⟨[.started e.generation], rfl, ?_⟩
    by_cases hne : j = i
    · subst hne
      rw [hi, Option.some.injEq] at hj
      subst hj
      exact .inl (by simp [hg])
    · exact .inr (overtaken_start h ⟨x, hi, hg, hrun, hidle, hfin⟩ hscan hj hne)

/-- A registration adds an entry elsewhere. -/
theorem waiting_register (hwaiting : Waiting s i g) : Overtaken s (register s) i g [] := by
  obtain ⟨x, hi, hrest⟩ := hwaiting
  obtain ⟨j, hj, hentry, hlength⟩ := register_entry s
  refine ⟨Waiting.update ⟨x, hi, hrest⟩ hentry ?_, by omega, ?_⟩
  · rintro rfl
    rw [hi] at hj
    cases hj
  · have hnext : (register s).cursor = s.cursor := rfl
    have hstarts : starts [] = 0 := rfl
    rw [hstarts]
    unfold Pool.distance
    rw [hnext]
    split_ifs <;> omega

/-- **One step**: it starts the waiting entry, or leaves it waiting and nearer. -/
theorem waiting_step {a : Action} (h : Inv s) (hwaiting : Waiting s i g)
    (hstep : step s a = some s') :
    ∃ new, s'.log = new ++ s.log ∧ (Event.started g ∈ new ∨ Overtaken s s' i g new) := by
  obtain ⟨x, hi, hg, hrun, hidle, hfin⟩ := hwaiting
  have hsame : ∀ {t : Pool}, t.entries = s.entries → t.cursor = s.cursor → Overtaken s t i g [] := by
    intro t hentries hcursor
    refine .of_same ⟨x, ?_, hg, hrun, hidle, hfin⟩ hcursor (by rw [hentries]) rfl
    simpa [Pool.entry, hentries] using hi
  cases a with
  | select w now =>
    simp only [step, Option.ite_none_right_eq_some, Option.some.injEq] at hstep
    obtain ⟨-, rfl⟩ := hstep
    exact waiting_select h ⟨x, hi, hg, hrun, hidle, hfin⟩
  | register =>
    simp only [step, Option.ite_none_right_eq_some, Option.some.injEq] at hstep
    obtain ⟨-, rfl⟩ := hstep
    exact ⟨[], rfl, .inr (waiting_register ⟨x, hi, hg, hrun, hidle, hfin⟩)⟩
  | wake index generation =>
    cases hstep
    unfold wake
    cases hj : s.entry index with
    | none => exact ⟨[], rfl, .inr (hsame rfl rfl)⟩
    | some e =>
      simp only
      split_ifs with hstale
      · exact ⟨[], rfl, .inr (hsame rfl rfl)⟩
      · refine ⟨[.woken generation], rfl, .inr (.of_same ?_ rfl ?_ rfl)⟩
        · refine Waiting.update ⟨x, hi, hg, hrun, hidle, hfin⟩ (Pool.entry_set hj _) ?_
          rintro rfl y hy - hyi hyf
          rw [hj, Option.some.injEq] at hy
          subst hy
          exact ⟨rfl, rfl, hyi, hyf⟩
        · simp [Pool.set, Pool.notifyAll, Pool.record]
  | complete w result =>
    simp only [step] at hstep
    split at hstep
    next j g' hw =>
      obtain ⟨e, hj, rfl⟩ := Option.map_eq_some_iff.mp hstep
      refine ⟨[.returned g' result.next], rfl, .inr (.of_same ?_ rfl ?_ rfl)⟩
      · refine Waiting.update ⟨x, hi, hg, hrun, hidle, hfin⟩ (Pool.entry_set hj _) ?_
        rintro rfl y hy - hyi -
        obtain ⟨z, hz, -, hzx⟩ := h.roster.busy w j g' hw
        rw [hz, Option.some.injEq] at hy
        rw [hy, hyi] at hzx
        cases hzx
      · simp [complete, Pool.set, Pool.setWorker, Pool.notifyAll, Pool.record]
    next => cases hstep
  | stopNext =>
    simp only [step] at hstep
    split at hstep
    next j hl =>
      cases hstep
      unfold stopNext
      split_ifs with hend
      · exact ⟨[], rfl, .inr (hsame rfl rfl)⟩
      · cases hj : s.entry j with
        | none => exact ⟨[], rfl, .inr (hsame rfl rfl)⟩
        | some e =>
          simp only
          split_ifs with hdone
          · exact ⟨[], rfl, .inr (hsame rfl rfl)⟩
          · refine ⟨[], rfl, .inr (.of_same ?_ rfl (by simp [Pool.set]) rfl)⟩
            refine Waiting.update ⟨x, hi, hg, hrun, hidle, hfin⟩ (Pool.entry_set hj _) ?_
            rintro rfl y hy hyr hyi hyf
            rw [hj, Option.some.injEq] at hy
            subst hy
            exact ⟨rfl, hyr, hyi, hyf⟩
    next => cases hstep
  | stopNotified =>
    simp only [step] at hstep
    split at hstep
    next j g' hl =>
      obtain ⟨e, hj, rfl⟩ := Option.map_eq_some_iff.mp hstep
      have hentry : ∀ l log, Waiting
          { (s.set j { e with
                stopNotifying := false
                runnable := !e.finished || e.runnable }).notifyAll with
            lifecycle := l, log := log } i g := by
        intro l log
        refine Waiting.update ⟨x, hi, hg, hrun, hidle, hfin⟩ (Pool.entry_set hj _) ?_
        rintro rfl y hy hyr hyi hyf
        rw [hj, Option.some.injEq] at hy
        subst hy
        exact ⟨rfl, by simp [hyr], hyi, hyf⟩
      unfold stopNotified
      simp only
      split_ifs with hdone
      · exact ⟨[], rfl, .inr (.of_same (hentry _ _) rfl (by simp [Pool.set, Pool.notifyAll]) rfl)⟩
      · exact ⟨[.woken e.generation], rfl,
          .inr (.of_same (hentry _ _) rfl (by simp [Pool.set, Pool.notifyAll, Pool.record]) rfl)⟩
    next => cases hstep
  | destroy index generation =>
    simp only [step] at hstep
    split at hstep
    next e hj =>
      split_ifs at hstep with hassert
      cases hstep
      refine ⟨[.destroyed generation], rfl, .inr (.of_same ⟨x, ?_, hg, hrun, hidle, hfin⟩ rfl ?_ rfl)⟩
      · refine (congrFun (Pool.entry_erase s index) i).trans (update_none_eq_some.mpr ⟨?_, hi⟩)
        rintro rfl
        rw [hi, Option.some.injEq] at hj
        rw [← hj, hfin] at hassert
        simp at hassert
      · simp [Pool.notifyAll, Pool.record]
    next => cases hstep
  | addBegin | addThrows | spawn | spawnFails | abortJoin | rouse w | stopBegin | stopJoin =>
    simp only [step, Option.ite_none_right_eq_some, Option.some.injEq] at hstep
    obtain ⟨-, rfl⟩ := hstep
    exact ⟨[], rfl, .inr (hsame rfl rfl)⟩

/-- The log only grows. -/
theorem log_step {a : Action} (hstep : step s a = some s') : ∃ new, s'.log = new ++ s.log := by
  cases a with
  | select w now =>
    simp only [step, Option.ite_none_right_eq_some, Option.some.injEq] at hstep
    obtain ⟨-, rfl⟩ := hstep
    simp only [select]
    split
    · split
      · exact ⟨[_], rfl⟩
      · exact ⟨[], rfl⟩
    · split
      · exact ⟨[], rfl⟩
      · exact ⟨[], rfl⟩
  | wake index generation =>
    cases hstep
    unfold wake
    split
    · exact ⟨[], rfl⟩
    · split
      · exact ⟨[], rfl⟩
      · exact ⟨[_], rfl⟩
  | complete w result =>
    simp only [step] at hstep
    split at hstep
    next =>
      obtain ⟨e, -, rfl⟩ := Option.map_eq_some_iff.mp hstep
      exact ⟨[_], rfl⟩
    next => cases hstep
  | stopNext =>
    simp only [step] at hstep
    split at hstep
    next =>
      cases hstep
      unfold stopNext
      split
      · exact ⟨[], rfl⟩
      · split
        · exact ⟨[], rfl⟩
        · split
          · exact ⟨[], rfl⟩
          · exact ⟨[], rfl⟩
    next => cases hstep
  | stopNotified =>
    simp only [step] at hstep
    split at hstep
    next =>
      obtain ⟨e, -, rfl⟩ := Option.map_eq_some_iff.mp hstep
      unfold stopNotified
      simp only
      split
      · exact ⟨[], rfl⟩
      · exact ⟨[_], rfl⟩
    next => cases hstep
  | destroy index generation =>
    simp only [step] at hstep
    split at hstep
    next =>
      split_ifs at hstep
      cases hstep
      exact ⟨[_], rfl⟩
    next => cases hstep
  | addBegin | addThrows | spawn | spawnFails | abortJoin | register | rouse w | stopBegin
  | stopJoin =>
    simp only [step, Option.ite_none_right_eq_some, Option.some.injEq] at hstep
    obtain ⟨-, rfl⟩ := hstep
    exact ⟨[], rfl⟩

theorem log_run (hrun : run step s actions = some s') : ∃ new, s'.log = new ++ s.log := by
  refine run_invariant (I := fun t => ∃ new, t.log = new ++ s.log) ?_ ⟨[], rfl⟩ hrun
  rintro t a t' ⟨new, hnew⟩ hstep
  obtain ⟨more, hmore⟩ := log_step hstep
  exact ⟨more ++ new, by rw [hmore, hnew, List.append_assoc]⟩

/-- **A whole run**: it starts the waiting entry, or leaves it waiting and nearer. -/
theorem waiting_run (h : Inv s) (hwaiting : Waiting s i g) (hrun : run step s actions = some s') :
    ∃ new, s'.log = new ++ s.log ∧ (Event.started g ∈ new ∨ Overtaken s s' i g new) := by
  induction actions generalizing s with
  | nil =>
    cases hrun
    exact ⟨[], rfl, .inr (.of_same hwaiting rfl rfl rfl)⟩
  | cons a actions ih =>
    obtain ⟨s1, hstep, hrest⟩ := Option.bind_eq_some_iff.mp hrun
    obtain ⟨new, hnew, hstarted | hpassed⟩ := waiting_step h hwaiting hstep
    · obtain ⟨more, hmore⟩ := log_run hrest
      refine ⟨more ++ new, by rw [hmore, hnew, List.append_assoc], .inl ?_⟩
      exact List.mem_append_right _ hstarted
    · obtain ⟨more, hmore, hlater⟩ := ih (inv_step h hstep) hpassed.waiting hrest
      refine ⟨more ++ new, by rw [hmore, hnew, List.append_assoc], ?_⟩
      refine hlater.imp (List.mem_append_left _) fun hlater => ?_
      refine ⟨hlater.waiting, hpassed.grows.trans hlater.grows, ?_⟩
      have hsum : starts (more ++ new) = starts more + starts new := List.countP_append
      have hfirst := hpassed.nearer
      have hsecond := hlater.nearer
      omega

/-- **Fewer steps than there are entries start before that of a waiting entry.** -/
theorem selections_lt (h : Inv s) (hwaiting : Waiting s i g) (hrun : run step s actions = some s') :
    ∃ new, s'.log = new ++ s.log ∧ (Event.started g ∈ new ∨ starts new < s'.entries.length) := by
  obtain ⟨new, hnew, hor⟩ := waiting_run h hwaiting hrun
  refine ⟨new, hnew, hor.imp_right fun hpassed => ?_⟩
  obtain ⟨e, hi, -⟩ := hwaiting
  have hlt := Pool.entry_lt hi
  have hcursor := h.cursor
  have hdistance := (Pool.probe_distance hlt (by omega)).2
  have hnearer := hpassed.nearer
  omega

/-! ## What holds in every run -/

/-- A wake that no step of the entry answered yet, nor the end of its last step. -/
theorem owed_of_split {later earlier : List Event} (hstarted : Event.started g ∉ later)
    (hfinished : Event.returned g .finished ∉ later) : owed g (later ++ Event.woken g :: earlier) = true := by
  induction later with
  | nil => simp [owed]
  | cons event later ih =>
    simp only [List.mem_cons, not_or] at hstarted hfinished
    have hih := ih hstarted.2 hfinished.2
    cases event with
    | woken g' => simp [owed, hih]
    | started g' =>
      have hne : g ≠ g' := fun heq => hstarted.1 (heq ▸ rfl)
      simp [owed, hih, hne]
    | returned g' next =>
      have hne : ¬(g = g' ∧ next = .finished) := by
        rintro ⟨rfl, rfl⟩
        exact hfinished.1 rfl
      simp [owed, hih]
      tauto
    | destroyed g' => simpa [owed] using hih

/-- The entry is served: no worker sleeps or has returned, a worker that looks selects, and
    fewer steps than there are entries start before it does. -/
structure Served (s : Pool) (g : ℕ) : Prop where
  workers : s.workers ≠ []
  awake : ∀ p ∈ s.workers, p ≠ .asleep ∧ p ≠ .returned
  selects : ∀ now, (scan s now).selected ≠ none
  bound : ∀ more s', run step s more = some s' →
    ∃ new, s'.log = new ++ s.log ∧ (Event.started g ∈ new ∨ starts new < s'.entries.length)

theorem Waiting.served (h : Inv s) (hwaiting : Waiting s i g) : Served s g := by
  obtain ⟨e, hi, hg, hrun, hidle, hfin⟩ := hwaiting
  refine ⟨h.manned i e hi hfin, fun p hp => ⟨?_, ?_⟩, fun now hscan => ?_, fun more s' hmore => ?_⟩
  · rintro rfl
    obtain ⟨w, hw⟩ := List.getElem?_of_mem hp
    rw [h.roster.asleep w hw i e hi hrun] at hidle
    cases hidle
  · rintro rfl
    obtain ⟨w, hw⟩ := List.getElem?_of_mem hp
    rw [(h.roster.returned w hw).2 i e hi] at hfin
    cases hfin
  · exact (scan_none hscan h.cursor).1 i e hi ⟨hfin, hidle, by simp [Entry.due, hrun]⟩
  · exact selections_lt h ⟨e, hi, hg, hrun, hidle, hfin⟩ hmore

/-- **Every run of the pool.** One step of an entry at a time, and none after it returned
    `finished`; a wake is followed by a later step, unless the step that was running returned
    `finished`: until then the entry stays runnable, and once it does not run it is served; a
    stale wakeup changes nothing; a worker returns only from a stopping pool whose entries have
    all finished. -/
theorem pool_steps_every_wake {workers : ℕ} {actions : List Action} {s : Pool}
    (h : run step (create workers) actions = some s) :
    (∀ w w' i i' g, s.worker w = some (.stepping i g) → s.worker w' = some (.stepping i' g) →
      w = w') ∧
    FinishedIsLast s.log ∧
    (∀ g later earlier, s.log = later ++ Event.woken g :: earlier →
      Event.started g ∈ later ∨ Event.returned g .finished ∈ later ∨
      ∃ i e, s.entry i = some e ∧ e.generation = g ∧ e.runnable = true ∧ e.finished = false ∧
        (e.executing = false → Served s g) ∧
        (e.executing = true → ∃ w, s.worker w = some (.stepping i g))) ∧
    (∀ index g, Event.destroyed g ∈ s.log → wake s index g = s) ∧
    (∀ index g e, s.entry index = some e → e.generation ≠ g → wake s index g = s) ∧
    (Worker.returned ∈ s.workers → s.stopping = true ∧ ∀ i e, s.entry i = some e → e.finished = true) := by
  have hinv := inv_run h
  refine ⟨?_, hinv.table.last, ?_, ?_, ?_, ?_⟩
  · intro w w' i i' g hw hw'
    obtain ⟨e, hi, hg, -⟩ := hinv.roster.busy w i g hw
    obtain ⟨e', hi', hg', -⟩ := hinv.roster.busy w' i' g hw'
    obtain rfl := hinv.table.unique i i' e e' hi hi' (hg.trans hg'.symm)
    exact hinv.roster.alone w w' i g g hw hw'
  · intro g later earlier hlog
    by_cases hstarted : Event.started g ∈ later
    · exact .inl hstarted
    by_cases hfinished : Event.returned g .finished ∈ later
    · exact .inr (.inl hfinished)
    have howed : owed g s.log = true := by
      rw [hlog]
      exact owed_of_split hstarted hfinished
    obtain ⟨i, e, hi, hg, hrun, hfin⟩ := hinv.table.pending g howed
    refine .inr (.inr ⟨i, e, hi, hg, hrun, hfin, fun hidle => ?_, fun hexecuting => ?_⟩)
    · exact Waiting.served hinv ⟨e, hi, hg, hrun, hidle, hfin⟩
    · obtain ⟨w, g', hw⟩ := hinv.roster.stepped i e hi hexecuting
      obtain ⟨x, hx, hxg, -⟩ := hinv.roster.busy w i g' hw
      rw [hi, Option.some.injEq] at hx
      subst hx
      exact ⟨w, by rw [← hg, hxg]; exact hw⟩
  · intro index g hgone
    unfold wake
    cases hi : s.entry index with
    | none => rfl
    | some e => simp [(hinv.table.gone g hgone).2 index e hi]
  · intro index g e hi hne
    simp [wake, hi, hne]
  · intro hmem
    obtain ⟨w, hw⟩ := List.getElem?_of_mem hmem
    exact hinv.roster.returned w hw

/-- A pool of one worker, whose entry is woken, runs, and is woken again. -/
def wokenTwice : List Action :=
  [.addBegin, .spawn, .register, .wake 0 1, .select 0 0, .wake 0 1]

theorem pool_steps_woken_twice : ∃ s, run step (create 1) wokenTwice = some s ∧
    s.workers = [.stepping 0 1] ∧ FinishedIsLast s.log := by
  have hrun : ∃ s, run step (create 1) wokenTwice = some s ∧ s.workers = [.stepping 0 1] :=
    ⟨_, rfl, by decide⟩
  obtain ⟨s, hs, hworkers⟩ := hrun
  exact ⟨s, hs, hworkers, (pool_steps_every_wake hs).2.1⟩

/-- The second wake is of an unfinished entry. Its running step returns `finished`, and no
    step of the entry ever follows. -/
theorem wake_lost_with_last_step : ∃ s t : Pool,
    run step (create 1) wokenTwice = some s ∧
    (∃ e, s.entry 0 = some e ∧ e.finished = false ∧ s.log.head? = some (.woken e.generation)) ∧
    step s (.complete 0 { next := .finished }) = some t ∧
    ∀ more t', run step t more = some t' → ∀ new, t'.log = new ++ s.log → Event.started 1 ∉ new := by
  obtain ⟨s, t, hs, he, ht, hlog⟩ : ∃ s t : Pool, run step (create 1) wokenTwice = some s ∧
      (∃ e, s.entry 0 = some e ∧ e.finished = false ∧ s.log.head? = some (.woken e.generation)) ∧
      step s (.complete 0 { next := .finished }) = some t ∧
      t.log = .returned 1 .finished :: s.log :=
    ⟨_, _, rfl, ⟨_, rfl, rfl, rfl⟩, rfl, rfl⟩
  refine ⟨s, t, hs, he, ht, fun more t' hmore new hnew hstarted => ?_⟩
  have hreach : run step (create 1) (wokenTwice ++ [Action.complete 0 { next := .finished }]) = some t :=
    run_trans hs (by rw [run_cons, ht]; rfl)
  have hlast : FinishedIsLast t'.log := (inv_run (run_trans hreach hmore)).table.last
  obtain ⟨later, hlater⟩ := log_run hmore
  have hsplit : new = later ++ [Event.returned 1 .finished] := by
    refine List.append_cancel_right (hnew.symm.trans (hlater.trans ?_))
    rw [hlog, List.append_assoc]
    rfl
  have hmem : Event.started 1 ∈ later := by simpa [hsplit] using hstarted
  rw [FinishedIsLast, hlater, hlog, List.pairwise_append] at hlast
  exact hlast.2.2 _ hmem _ List.mem_cons_self 1 rfl rfl

end Sirius.ScanManager.CoordinatorPool
