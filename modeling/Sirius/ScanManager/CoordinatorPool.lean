import Sirius.Common.Run

/-!
# The pool of coordinator workers

Model of `coordinator_pool` (`src/scan_manager/coordinator_pool.cpp`). Entries are stepped by
workers, one step at a time; a parked entry costs no worker. A worker selects an entry under
the mutex, runs its step without it, and takes the mutex again for the result.

The state is what the mutex protects, with the place of every worker and of the call that
holds `lifecycle_mutex_`. A step is one critical section. The time a worker reads and the
result of a step are part of the action; a step that throws has the result `runnable`. A
worker that waits may be roused at any time, which covers deadlines and spurious wake-ups.
A registration is destroyed only where the assertion of its destructor holds.

* `step`: one critical section of one thread.
* `scan_some`, `scan_none`: what the search of a worker selects.
* `Table`: the entries and what happened to them.
* `Roster`: the entries and the places of the workers.
-/

namespace Sirius.ScanManager.CoordinatorPool

open Sirius.Common

/-- An entry without its callbacks. Its generation, which is never given twice, stands for the
    entry itself. -/
structure Entry where
  generation : ℕ
  runnable : Bool := false
  executing : Bool := false
  finished : Bool := false
  stopNotifying : Bool := false
  deadline : Option ℤ := none
  deriving DecidableEq, Repr

inductive Progress where
  | runnable
  | parked
  | finished
  deriving DecidableEq, Repr

structure StepResult where
  next : Progress
  deadline : Option ℤ := none
  deriving DecidableEq, Repr

/-- Where a worker is in `run`. -/
inductive Worker where
  /-- about to look for an entry -/
  | scanning
  /-- in `changed.wait` or `changed.wait_until` -/
  | asleep
  /-- runs the step of the entry it selected -/
  | stepping (index generation : ℕ)
  | returned
  deriving DecidableEq, Repr

/-- The call that holds `lifecycle_mutex_`. -/
inductive Lifecycle where
  | idle
  /-- `add`, in `start_workers` or after it -/
  | starting
  /-- `start_workers` failed, and joins the workers it started -/
  | aborting
  /-- `stop`, before the `i`-th round of its loop -/
  | stopping (i : ℕ)
  /-- `stop`, in the callback of an entry -/
  | notifying (i generation : ℕ)
  /-- `stop`, joins the workers -/
  | joining
  deriving DecidableEq, Repr

/-- What happened to the entries. A stop that reaches an entry wakes it. -/
inductive Event where
  | woken (generation : ℕ)
  | started (generation : ℕ)
  | returned (generation : ℕ) (next : Progress)
  | destroyed (generation : ℕ)
  deriving DecidableEq, Repr

/-- The shared state and the threads; `log` is what happened, the latest first. -/
structure Pool where
  entries : List (Option Entry) := []
  workerCount : ℕ
  cursor : ℕ := 0
  nextGeneration : ℕ := 0
  stopping : Bool := false
  workers : List Worker := []
  lifecycle : Lifecycle := .idle
  log : List Event := []

/-- The entry at an index. -/
def Pool.entry (s : Pool) (i : ℕ) : Option Entry := s.entries[i]?.join

/-- Store an entry at an index. -/
def Pool.set (s : Pool) (i : ℕ) (e : Entry) : Pool :=
  { s with entries := s.entries.set i (some e) }

/-- `changed.notify_all()`. -/
def Pool.notifyAll (s : Pool) : Pool :=
  { s with workers := s.workers.map fun w => if w = .asleep then .scanning else w }

def Pool.setWorker (s : Pool) (w : ℕ) (place : Worker) : Pool :=
  { s with workers := s.workers.set w place }

def Pool.record (s : Pool) (event : Event) : Pool := { s with log := event :: s.log }

/-! ## The critical sections -/

/-- `state::wake` (lines 45–54). -/
def wake (s : Pool) (index generation : ℕ) : Pool :=
  match s.entry index with
  | none => s
  | some e =>
    if e.generation ≠ generation ∨ e.finished then s
    else
      ((s.set index { e with runnable := true, deadline := none }).notifyAll).record
        (.woken generation)

/-- The test of line 73. -/
def Entry.due (e : Entry) (now : ℤ) : Bool := e.runnable || e.deadline.any (· ≤ now)

/-- The search of a worker: the index it selects, and whether it met an unfinished entry. -/
structure Scan where
  selected : Option ℕ := none
  unfinished : Bool := false
  deriving DecidableEq, Repr

/-- The loop over the entries (lines 67–82), over the values of `n` that are left. -/
def scanFrom (s : Pool) (now : ℤ) : List ℕ → Scan → Scan
  | [], acc => acc
  | n :: ns, acc =>
    let i := (s.cursor + n) % s.entries.length
    match s.entry i with
    | none => scanFrom s now ns acc
    | some e =>
      if e.finished then scanFrom s now ns acc
      else if e.executing then scanFrom s now ns { acc with unfinished := true }
      else if e.due now then { selected := some i, unfinished := true }
      else scanFrom s now ns { acc with unfinished := true }

def scan (s : Pool) (now : ℤ) : Scan := scanFrom s now (List.range s.entries.length) {}

/-- Select an entry (lines 74–78). -/
def start (s : Pool) (w i : ℕ) (e : Entry) : Pool :=
  let s' := s.set i { e with executing := true, runnable := false, deadline := none }
  (({ s' with cursor := (i + 1) % s.entries.length }).setWorker w
    (.stepping i e.generation)).record (.started e.generation)

/-- One round of the inner loop of `run` (lines 63–92): select an entry, return, or wait. -/
def select (s : Pool) (w : ℕ) (now : ℤ) : Pool :=
  let found := scan s now
  match found.selected with
  | some i =>
    match s.entry i with
    | some e => start s w i e
    | none => s
  | none =>
    if s.stopping ∧ ¬found.unfinished then s.setWorker w .returned else s.setWorker w .asleep

/-- What a worker makes of the result of a step (lines 103–112). -/
def Entry.complete (e : Entry) (result : StepResult) : Entry :=
  let e := { e with executing := false }
  if result.next = .finished then { e with finished := true, runnable := false }
  -- a wake during the step wins over its parked result
  else if result.next = .runnable ∨ e.runnable then { e with runnable := true }
  else { e with deadline := result.deadline }

/-- The section after a step (lines 101–117). -/
def complete (s : Pool) (w i generation : ℕ) (e : Entry) (result : StepResult) : Pool :=
  (((s.set i (e.complete result)).setWorker w .scanning).notifyAll).record
    (.returned generation result.next)

/-- The section of `add` that registers an entry (lines 173–182). -/
def register (s : Pool) : Pool :=
  let e : Entry := { generation := s.nextGeneration + 1 }
  let slot := s.entries.findIdx (· = none)
  { s with
    entries := if slot = s.entries.length then s.entries ++ [some e] else s.entries.set slot (some e)
    nextGeneration := s.nextGeneration + 1
    lifecycle := .idle }

/-- One round of the loop of `stop` up to the callback (lines 196–204). -/
def stopNext (s : Pool) (i : ℕ) : Pool :=
  if i = s.entries.length then { s with lifecycle := .joining }
  else match s.entry i with
    | none => { s with lifecycle := .stopping (i + 1) }
    | some e =>
      if e.finished then { s with lifecycle := .stopping (i + 1) }
      else
        { s.set i { e with stopNotifying := true } with lifecycle := .notifying i e.generation }

/-- The section of `stop` after the callback (lines 206–212). -/
def stopNotified (s : Pool) (i : ℕ) (e : Entry) : Pool :=
  let e' := { e with stopNotifying := false, runnable := !e.finished || e.runnable }
  let s' := { (s.set i e').notifyAll with lifecycle := .stopping (i + 1) }
  if e.finished then s' else s'.record (.woken e.generation)

inductive Action where
  | addBegin
  | addThrows
  | spawn
  | spawnFails
  | abortJoin
  | register
  | wake (index generation : ℕ)
  | select (w : ℕ) (now : ℤ)
  | rouse (w : ℕ)
  | complete (w : ℕ) (result : StepResult)
  | stopBegin
  | stopNext
  | stopNotified
  | stopJoin
  | destroy (index generation : ℕ)
  deriving DecidableEq, Repr

/-- One critical section of one thread, or `none` where the thread is not there. -/
def step (s : Pool) : Action → Option Pool
  | .addBegin =>
    if s.lifecycle = .idle ∧ ¬s.stopping ∧ s.workerCount ≠ 0 then
      some { s with lifecycle := .starting }
    else none
  | .addThrows =>
    if s.lifecycle = .starting ∧ (s.workers = [] ∨ s.workers.length = s.workerCount) then
      some { s with lifecycle := .idle }
    else none
  | .spawn =>
    if s.lifecycle = .starting ∧ s.workers.length < s.workerCount then
      some { s with workers := s.workers ++ [Worker.scanning] }
    else none
  | .spawnFails =>
    if s.lifecycle = .starting ∧ s.workers.length < s.workerCount then
      some { s.notifyAll with stopping := true, lifecycle := .aborting }
    else none
  | .abortJoin =>
    if s.lifecycle = .aborting ∧ ∀ w ∈ s.workers, w = .returned then
      some { s with workers := [], stopping := false, lifecycle := .idle }
    else none
  | .register =>
    if s.lifecycle = .starting ∧ s.workers.length = s.workerCount then some (register s) else none
  | .wake index generation => some (wake s index generation)
  | .select w now => if s.workers[w]? = some .scanning then some (select s w now) else none
  | .rouse w => if s.workers[w]? = some .asleep then some (s.setWorker w .scanning) else none
  | .complete w result =>
    match s.workers[w]? with
    | some (.stepping i generation) => (s.entry i).map fun e => complete s w i generation e result
    | _ => none
  | .stopBegin =>
    if s.lifecycle = .idle ∧ ¬s.stopping then
      some { s.notifyAll with stopping := true, lifecycle := .stopping 0 }
    else none
  | .stopNext =>
    match s.lifecycle with
    | .stopping i => some (stopNext s i)
    | _ => none
  | .stopNotified =>
    match s.lifecycle with
    | .notifying i _ => (s.entry i).map fun e => stopNotified s i e
    | _ => none
  | .stopJoin =>
    if s.lifecycle = .joining ∧ ∀ w ∈ s.workers, w = .returned then
      some { s with workers := [], lifecycle := .idle }
    else none
  | .destroy index generation =>
    match s.entry index with
    | some e =>
      if e.generation = generation ∧ e.finished ∧ ¬e.executing ∧ ¬e.stopNotifying then
        some (({ s with entries := s.entries.set index none }).notifyAll.record
          (.destroyed generation))
      else none
    | none => none

/-- The constructor. -/
def create (workers : ℕ) : Pool := { workerCount := workers }

/-! ## Reading the state -/

theorem update_eq_some {α : Type} {f : ℕ → Option α} {i j : ℕ} {a x : α} :
    Function.update f i (some a) j = some x ↔ j = i ∧ x = a ∨ j ≠ i ∧ f j = some x := by
  by_cases hj : j = i
  · subst hj
    simp [eq_comm]
  · simp [hj]

theorem update_none_eq_some {α : Type} {f : ℕ → Option α} {i j : ℕ} {x : α} :
    Function.update f i none j = some x ↔ j ≠ i ∧ f j = some x := by
  by_cases hj : j = i
  · subst hj
    simp
  · simp [hj]

/-- The worker at an index. -/
def Pool.worker (s : Pool) (w : ℕ) : Option Worker := s.workers[w]?

variable {i : ℕ} {s : Pool}

theorem Pool.entry_lt {e : Entry} (h : s.entry i = some e) : i < s.entries.length := by
  by_contra hge
  simp [Pool.entry, List.getElem?_eq_none (not_lt.mp hge)] at h

theorem Pool.entry_set {e : Entry} (h : s.entry i = some e) (e' : Entry) :
    (s.set i e').entry = Function.update s.entry i (some e') := by
  funext j
  have hlt := Pool.entry_lt h
  by_cases hj : j = i
  · subst hj
    simp [Pool.entry, Pool.set, hlt]
  · simp [Pool.entry, Pool.set, List.getElem?_set_ne (Ne.symm hj), Function.update_of_ne hj]

theorem Pool.entry_erase (s : Pool) (i : ℕ) :
    Pool.entry { s with entries := s.entries.set i none } = Function.update s.entry i none := by
  funext j
  by_cases hj : j = i
  · subst hj
    by_cases hlt : j < s.entries.length
    · simp [Pool.entry, hlt]
    · simp [Pool.entry, List.set_eq_of_length_le (not_lt.mp hlt),
        List.getElem?_eq_none (not_lt.mp hlt)]
  · simp [Pool.entry, List.getElem?_set_ne (Ne.symm hj), Function.update_of_ne hj]

/-- The workers after `notify_all`. -/
theorem Pool.worker_notifyAll (s : Pool) (w : ℕ) :
    s.notifyAll.worker w = (s.worker w).map fun p => if p = .asleep then .scanning else p := by
  simp [Pool.worker, Pool.notifyAll]

theorem Pool.worker_setWorker {w : ℕ} {p : Worker} (h : s.worker w = some p)
    (q : Worker) : (s.setWorker w q).worker = Function.update s.worker w (some q) := by
  funext v
  have hlt : w < s.workers.length := (List.getElem?_eq_some_iff.mp h).1
  by_cases hv : v = w
  · subst hv
    simp [Pool.worker, Pool.setWorker, hlt]
  · simp [Pool.worker, Pool.setWorker, List.getElem?_set_ne (Ne.symm hv),
      Function.update_of_ne hv]

/-- The entry that `register` stores, and where. -/
theorem register_entry (s : Pool) : ∃ i, s.entry i = none ∧
    (register s).entry = Function.update s.entry i (some { generation := s.nextGeneration + 1 }) ∧
    ((register s).entries.length = s.entries.length ∨
      (register s).entries.length = s.entries.length + 1) := by
  refine ⟨s.entries.findIdx (· = none), ?_⟩
  by_cases hslot : s.entries.findIdx (· = none) = s.entries.length
  · refine ⟨?_, ?_, .inr (by simp [register, hslot])⟩
    · simp [Pool.entry, hslot]
    · funext j
      simp only [register, Pool.entry, hslot, if_true]
      rcases lt_trichotomy j s.entries.length with hj | hj | hj
      · simp [List.getElem?_append_left hj, Function.update_of_ne hj.ne, Pool.entry]
      · simp [hj]
      · have hout : (s.entries ++ [some { generation := s.nextGeneration + 1 }])[j]? = none :=
          List.getElem?_eq_none (by simp; omega)
        simp [hout, Function.update_of_ne hj.ne', Pool.entry, List.getElem?_eq_none hj.le]
  · have hlt : s.entries.findIdx (· = none) < s.entries.length :=
      lt_of_le_of_ne List.findIdx_le_length hslot
    have hnone : s.entries[s.entries.findIdx (· = none)] = none := by
      simpa using List.findIdx_getElem (w := hlt)
    refine ⟨?_, ?_, .inl (by simp [register, hslot])⟩
    · simp [Pool.entry, List.getElem?_eq_getElem hlt, hnone]
    · funext j
      simp only [register, Pool.entry, hslot, if_false]
      by_cases hj : j = s.entries.findIdx (· = none)
      · subst hj
        simp [hlt]
      · simp [List.getElem?_set_ne (Ne.symm hj), Function.update_of_ne hj, Pool.entry]

/-! ## The search -/

/-- A worker selects it at `now`. -/
def Entry.Eligible (e : Entry) (now : ℤ) : Prop :=
  e.finished = false ∧ e.executing = false ∧ e.due now = true

/-- The index that the `n`-th round of the search looks at. -/
def Pool.probe (s : Pool) (n : ℕ) : ℕ := (s.cursor + n) % s.entries.length

/-- One round of the search: it stops at an eligible entry, and goes on otherwise. -/
theorem scanFrom_cons (s : Pool) (now : ℤ) (n : ℕ) (ns : List ℕ) (acc : Scan) :
    (∃ e, s.entry (s.probe n) = some e ∧ e.Eligible now ∧
      scanFrom s now (n :: ns) acc = { selected := some (s.probe n), unfinished := true }) ∨
    ((∀ e, s.entry (s.probe n) = some e → ¬e.Eligible now) ∧
      ∃ unfinished, scanFrom s now (n :: ns) acc = scanFrom s now ns { acc with unfinished } ∧
        (unfinished = false → acc.unfinished = false ∧
          ∀ e, s.entry (s.probe n) = some e → e.finished = true)) := by
  simp only [scanFrom, Pool.probe]
  cases he : s.entry ((s.cursor + n) % s.entries.length) with
  | none => exact .inr ⟨by simp, acc.unfinished, rfl, by simp⟩
  | some e =>
    simp only [Entry.Eligible]
    by_cases hfinished : e.finished = true
    · exact .inr ⟨by simp [hfinished], acc.unfinished, by simp [hfinished], by simp [hfinished]⟩
    · by_cases hexecuting : e.executing = true
      · exact .inr ⟨by simp [hexecuting], true, by simp [hfinished, hexecuting], by simp⟩
      · by_cases hdue : e.due now = true
        · exact .inl ⟨e, rfl, by simp_all, by simp [hfinished, hexecuting, hdue]⟩
        · exact .inr ⟨by simp [hdue], true, by simp [hfinished, hexecuting, hdue], by simp⟩

/-- What the search selects is the first eligible entry. -/
theorem scanFrom_some {now : ℤ} {ns : List ℕ} {acc : Scan} (hacc : acc.selected = none)
    (h : (scanFrom s now ns acc).selected = some i) :
    ∃ before n after e, ns = before ++ n :: after ∧ s.probe n = i ∧ s.entry i = some e ∧
      e.Eligible now ∧ ∀ m ∈ before, ∀ e', s.entry (s.probe m) = some e' → ¬e'.Eligible now := by
  induction ns generalizing acc with
  | nil => simp [scanFrom, hacc] at h
  | cons n ns ih =>
    rcases scanFrom_cons s now n ns acc with ⟨e, he, helig, hscan⟩ | ⟨hnot, u, hscan, -⟩
    · rw [hscan, Option.some.injEq] at h
      subst h
      exact ⟨[], n, ns, e, rfl, rfl, he, helig, by simp⟩
    · rw [hscan] at h
      obtain ⟨before, k, after, e, rfl, hk, he, helig, hbefore⟩ :=
        @ih { acc with unfinished := u } hacc h
      refine ⟨n :: before, k, after, e, rfl, hk, he, helig, fun m hm e' he' => ?_⟩
      rcases List.mem_cons.mp hm with rfl | hm
      · exact hnot e' he'
      · exact hbefore m hm e' he'

/-- A search that selects nothing met no eligible entry, and reports an unfinished one. -/
theorem scanFrom_none {now : ℤ} {ns : List ℕ} {acc : Scan}
    (h : (scanFrom s now ns acc).selected = none) :
    (∀ n ∈ ns, ∀ e, s.entry (s.probe n) = some e → ¬e.Eligible now) ∧
      ((scanFrom s now ns acc).unfinished = false → acc.unfinished = false ∧
        ∀ n ∈ ns, ∀ e, s.entry (s.probe n) = some e → e.finished = true) := by
  induction ns generalizing acc with
  | nil => simp [scanFrom]
  | cons n ns ih =>
    rcases scanFrom_cons s now n ns acc with ⟨e, he, helig, hscan⟩ | ⟨hnot, u, hscan, hu⟩
    · rw [hscan] at h
      cases h
    · rw [hscan] at h ⊢
      obtain ⟨hno, hfinished⟩ := ih h
      refine ⟨List.forall_mem_cons.mpr ⟨hnot, hno⟩, fun hfalse => ?_⟩
      obtain ⟨hu', hrest⟩ := hfinished hfalse
      exact ⟨(hu hu').1, List.forall_mem_cons.mpr ⟨(hu hu').2, hrest⟩⟩

/-- The round of the search that looks at an index. -/
def Pool.distance (s : Pool) (i : ℕ) : ℕ :=
  if s.cursor ≤ i then i - s.cursor else i + s.entries.length - s.cursor

theorem Pool.probe_distance (hi : i < s.entries.length)
    (hcursor : s.cursor < s.entries.length) : s.probe (s.distance i) = i ∧
      s.distance i < s.entries.length := by
  unfold Pool.probe Pool.distance
  by_cases hle : s.cursor ≤ i
  · rw [if_pos hle, Nat.add_sub_cancel' hle, Nat.mod_eq_of_lt hi]
    exact ⟨rfl, by omega⟩
  · rw [if_neg hle, Nat.add_sub_cancel' (by omega), Nat.add_mod_right, Nat.mod_eq_of_lt hi]
    exact ⟨rfl, by omega⟩

theorem Pool.distance_probe {n : ℕ} (hn : n < s.entries.length)
    (hcursor : s.cursor < s.entries.length) : s.distance (s.probe n) = n := by
  unfold Pool.probe Pool.distance
  by_cases hlt : s.cursor + n < s.entries.length
  · rw [Nat.mod_eq_of_lt hlt, if_pos (Nat.le_add_right _ _), Nat.add_sub_cancel_left]
  · rw [Nat.mod_eq_sub_mod (by omega), Nat.mod_eq_of_lt (by omega), if_neg (by omega)]
    omega

/-- **The search selects an eligible entry**, and no other one is nearer to the cursor. -/
theorem scan_some {now : ℤ} (h : (scan s now).selected = some i)
    (hcursor : s.cursor = 0 ∨ s.cursor < s.entries.length) :
    ∃ e, s.entry i = some e ∧ e.Eligible now ∧
      ∀ j e', s.entry j = some e' → e'.Eligible now → s.distance i ≤ s.distance j := by
  obtain ⟨before, n, after, e, hrange, rfl, he, helig, hbefore⟩ := scanFrom_some rfl h
  have hn : before = List.range n ∧ n < s.entries.length := by
    have hlen := congrArg List.length hrange
    simp only [List.length_range, List.length_append, List.length_cons] at hlen
    have hget := congrArg (·[before.length]?) hrange
    simp only [List.getElem?_append_right le_rfl, Nat.sub_self, List.getElem?_cons_zero] at hget
    rw [List.getElem?_range (by omega), Option.some.injEq] at hget
    have htake := congrArg (List.take before.length) hrange
    rw [List.take_left, List.take_range, min_eq_left (by omega), hget] at htake
    exact ⟨htake.symm, by omega⟩
  have hlt := Pool.entry_lt he
  refine ⟨e, he, helig, fun j e' he' helig' => ?_⟩
  rw [Pool.distance_probe hn.2 (by omega)]
  by_contra hnear
  obtain ⟨hprobe, -⟩ := Pool.probe_distance (Pool.entry_lt he') (s := s) (by omega)
  refine hbefore (s.distance j) ?_ e' (by rw [hprobe]; exact he') helig'
  rw [hn.1]
  exact List.mem_range.mpr (not_le.mp hnear)

theorem scan_none {now : ℤ} (h : (scan s now).selected = none)
    (hcursor : s.cursor = 0 ∨ s.cursor < s.entries.length) :
    (∀ i e, s.entry i = some e → ¬e.Eligible now) ∧
      ((scan s now).unfinished = false → ∀ i e, s.entry i = some e → e.finished = true) := by
  obtain ⟨hno, hfinished⟩ := scanFrom_none h
  have hprobe : ∀ i e, s.entry i = some e → ∃ n ∈ List.range s.entries.length, s.probe n = i := by
    intro i e he
    have hlt := Pool.entry_lt he
    obtain ⟨hp, hd⟩ := Pool.probe_distance hlt (by omega)
    exact ⟨_, List.mem_range.mpr hd, hp⟩
  refine ⟨fun i e he => ?_, fun hu i e he => ?_⟩
  · obtain ⟨n, hn, rfl⟩ := hprobe i e he
    exact hno n hn e he
  · obtain ⟨n, hn, rfl⟩ := hprobe i e he
    exact (hfinished hu).2 n hn e he

/-! ## The entries and what happened to them -/

/-- A wake of the entry that no step has answered. -/
def owed (g : ℕ) : List Event → Bool
  | [] => false
  | .woken g' :: log => g = g' || owed g log
  | .started g' :: log => g ≠ g' && owed g log
  | .returned g' next :: log => ¬(g = g' ∧ next = .finished) && owed g log
  | .destroyed _ :: log => owed g log

/-- No step of an entry starts after one that returned `finished`. -/
def FinishedIsLast (log : List Event) : Prop :=
  log.Pairwise fun later earlier => ∀ g, earlier = .returned g .finished → later ≠ .started g

/-- What the entries have to do with what happened to them. -/
structure Table (entry : ℕ → Option Entry) (nextGeneration : ℕ) (log : List Event) : Prop where
  bound : ∀ i e, entry i = some e → e.generation ≤ nextGeneration
  unique : ∀ i j e e', entry i = some e → entry j = some e' → e.generation = e'.generation → i = j
  quiet : ∀ i e, entry i = some e → e.finished = true → e.executing = false ∧ e.runnable = false
  final : ∀ g, Event.returned g .finished ∈ log →
    g ≤ nextGeneration ∧ ∀ i e, entry i = some e → e.generation = g → e.finished = true
  gone : ∀ g, Event.destroyed g ∈ log →
    g ≤ nextGeneration ∧ ∀ i e, entry i = some e → e.generation ≠ g
  pending : ∀ g, owed g log = true →
    ∃ i e, entry i = some e ∧ e.generation = g ∧ e.runnable = true ∧ e.finished = false
  last : FinishedIsLast log

section Table

variable {entry : ℕ → Option Entry} {n : ℕ} {log : List Event}

variable {i : ℕ} {e e' : Entry}

/-- The entry at `i` becomes `e'`, and the log grows by events of that entry. -/
theorem Table.change {log' : List Event} (h : Table entry n log)
    (hi : entry i = some e) (hgeneration : e'.generation = e.generation)
    (hquiet : e'.finished = true → e'.executing = false ∧ e'.runnable = false)
    (hfinished : e.finished = true → e'.finished = true)
    (hfinal : ∀ g, Event.returned g .finished ∈ log' →
      Event.returned g .finished ∈ log ∨ g = e.generation ∧ e'.finished = true)
    (hgone : ∀ g, Event.destroyed g ∈ log' → Event.destroyed g ∈ log)
    (howed : ∀ g, owed g log' = true → g ≠ e.generation → owed g log = true)
    (hself : owed e.generation log' = true → e'.runnable = true ∧ e'.finished = false)
    (hlast : FinishedIsLast log') : Table (Function.update entry i (some e')) n log' := by
  refine ⟨?_, ?_, ?_, ?_, ?_, ?_, hlast⟩
  · intro j x hx
    rcases update_eq_some.mp hx with ⟨rfl, rfl⟩ | ⟨-, hx⟩
    · exact hgeneration ▸ h.bound j e hi
    · exact h.bound j x hx
  · intro j k x y hx hy hxy
    rcases update_eq_some.mp hx with ⟨rfl, rfl⟩ | ⟨-, hx'⟩ <;>
      rcases update_eq_some.mp hy with ⟨rfl, rfl⟩ | ⟨-, hy'⟩
    · rfl
    · exact h.unique j k e y hi hy' (hgeneration ▸ hxy)
    · exact h.unique j k x e hx' hi (hgeneration ▸ hxy)
    · exact h.unique j k x y hx' hy' hxy
  · intro j x hx hfin
    rcases update_eq_some.mp hx with ⟨rfl, rfl⟩ | ⟨-, hx⟩
    · exact hquiet hfin
    · exact h.quiet j x hx hfin
  · intro g hg
    rcases hfinal g hg with hg | ⟨rfl, hfin⟩
    · obtain ⟨hle, hall⟩ := h.final g hg
      refine ⟨hle, fun j x hx hxg => ?_⟩
      rcases update_eq_some.mp hx with ⟨rfl, rfl⟩ | ⟨-, hx⟩
      · exact hfinished (hall j e hi (hgeneration ▸ hxg))
      · exact hall j x hx hxg
    · refine ⟨h.bound i e hi, fun j x hx hxg => ?_⟩
      rcases update_eq_some.mp hx with ⟨rfl, rfl⟩ | ⟨hj, hx⟩
      · exact hfin
      · exact absurd (h.unique j i x e hx hi hxg) hj
  · intro g hg
    obtain ⟨hle, hall⟩ := h.gone g (hgone g hg)
    refine ⟨hle, fun j x hx => ?_⟩
    rcases update_eq_some.mp hx with ⟨rfl, rfl⟩ | ⟨-, hx⟩
    · exact hgeneration ▸ hall j e hi
    · exact hall j x hx
  · intro g hg
    by_cases hge : g = e.generation
    · subst hge
      obtain ⟨hrun, hfin⟩ := hself hg
      exact ⟨i, e', Function.update_self .., hgeneration, hrun, hfin⟩
    · obtain ⟨j, x, hx, hxg, hrest⟩ := h.pending g (howed g hg hge)
      refine ⟨j, x, ?_, hxg, hrest⟩
      rw [Function.update_of_ne, hx]
      rintro rfl
      rw [hi, Option.some.injEq] at hx
      exact hge (hx ▸ hxg.symm)

theorem Table.wake (h : Table entry n log) (hi : entry i = some e)
    (hgeneration : e'.generation = e.generation) (hfinished : e'.finished = e.finished)
    (hunfinished : e.finished = false) (hrunnable : e'.runnable = true) :
    Table (Function.update entry i (some e')) n (.woken e.generation :: log) := by
  refine h.change hi hgeneration ?_ ?_ ?_ ?_ ?_ ?_ ?_
  · simp [hfinished, hunfinished]
  · simp [hunfinished]
  · simp +contextual
  · simp
  · intro g hg hne
    simpa [owed, hne] using hg
  · exact fun _ => ⟨hrunnable, hfinished.trans hunfinished⟩
  · exact List.pairwise_cons.mpr ⟨by simp, h.last⟩

theorem Table.start (h : Table entry n log) (hi : entry i = some e)
    (hgeneration : e'.generation = e.generation) (hfinished : e'.finished = e.finished)
    (hunfinished : e.finished = false) :
    Table (Function.update entry i (some e')) n (.started e.generation :: log) := by
  refine h.change hi hgeneration ?_ ?_ ?_ ?_ ?_ ?_ ?_
  · simp [hfinished, hunfinished]
  · simp [hunfinished]
  · simp +contextual
  · simp
  · intro g hg hne
    simpa [owed, hne] using hg
  · simp [owed]
  · refine List.pairwise_cons.mpr ⟨fun earlier hmem g hg heq => ?_, h.last⟩
    subst hg
    cases heq
    rw [(h.final _ hmem).2 i e hi rfl] at hunfinished
    cases hunfinished

theorem Table.complete (h : Table entry n log) (hi : entry i = some e)
    (hunfinished : e.finished = false) (result : StepResult) :
    Table (Function.update entry i (some (e.complete result))) n
      (.returned e.generation result.next :: log) := by
  have hlast : FinishedIsLast (.returned e.generation result.next :: log) :=
    List.pairwise_cons.mpr ⟨by simp, h.last⟩
  have howed : ∀ g, owed g (.returned e.generation result.next :: log) = true →
      owed g log = true ∧ ¬(g = e.generation ∧ result.next = .finished) := by
    intro g hg
    simp only [owed, Bool.and_eq_true, decide_eq_true_eq] at hg
    exact hg.symm
  refine h.change hi ?_ ?_ (by simp [hunfinished]) ?_ (by simp) ?_ ?_ hlast
  · unfold Entry.complete
    grind
  · unfold Entry.complete
    grind
  · intro g hg
    rcases List.mem_cons.mp hg with hg | hg
    · injection hg with hg hnext
      refine .inr ⟨hg, ?_⟩
      simp [Entry.complete, ← hnext]
    · exact .inl hg
  · exact fun g hg _ => (howed g hg).1
  · intro hg
    obtain ⟨hlog, hnext⟩ := howed _ hg
    obtain ⟨j, x, hx, hxg, hrun, -⟩ := h.pending _ hlog
    obtain rfl := h.unique j i x e hx hi hxg
    rw [hi, Option.some.injEq] at hx
    subst hx
    have hne : result.next ≠ .finished := fun heq => hnext ⟨rfl, heq⟩
    simp [Entry.complete, hne, hrun, hunfinished]

/-- The entry of a new registration. -/
theorem Table.register (h : Table entry n log) (hi : entry i = none) :
    Table (Function.update entry i (some { generation := n + 1 })) (n + 1) log := by
  have hcase : ∀ j x, Function.update entry i (some { generation := n + 1 }) j = some x →
      j = i ∧ x = { generation := n + 1 } ∨ entry j = some x ∧ x.generation ≤ n := by
    intro j x hx
    rcases update_eq_some.mp hx with hx | ⟨-, hx⟩
    · exact .inl hx
    · exact .inr ⟨hx, h.bound j x hx⟩
  refine ⟨?_, ?_, ?_, ?_, ?_, ?_, h.last⟩
  · intro j x hx
    rcases hcase j x hx with ⟨-, rfl⟩ | ⟨-, hle⟩
    · exact le_rfl
    · omega
  · intro j k x y hx hy hxy
    rcases hcase j x hx with ⟨rfl, rfl⟩ | ⟨hx', hle⟩ <;>
      rcases hcase k y hy with ⟨rfl, rfl⟩ | ⟨hy', hle'⟩
    · rfl
    · rw [← hxy] at hle'
      exact absurd hle' (Nat.not_succ_le_self n)
    · rw [hxy] at hle
      exact absurd hle (Nat.not_succ_le_self n)
    · exact h.unique j k x y hx' hy' hxy
  · intro j x hx hfin
    rcases hcase j x hx with ⟨-, rfl⟩ | ⟨hx', -⟩
    · cases hfin
    · exact h.quiet j x hx' hfin
  · intro g hg
    obtain ⟨hle, hall⟩ := h.final g hg
    refine ⟨by omega, fun j x hx hxg => ?_⟩
    rcases hcase j x hx with ⟨-, rfl⟩ | ⟨hx', -⟩
    · subst hxg
      exact absurd hle (Nat.not_succ_le_self n)
    · exact hall j x hx' hxg
  · intro g hg
    obtain ⟨hle, hall⟩ := h.gone g hg
    refine ⟨by omega, fun j x hx hxg => ?_⟩
    rcases hcase j x hx with ⟨-, rfl⟩ | ⟨hx', -⟩
    · subst hxg
      exact absurd hle (Nat.not_succ_le_self n)
    · exact hall j x hx' hxg
  · intro g hg
    obtain ⟨j, x, hx, hrest⟩ := h.pending g hg
    refine ⟨j, x, ?_, hrest⟩
    rw [Function.update_of_ne, hx]
    rintro rfl
    rw [hi] at hx
    cases hx

/-- A finished entry leaves. -/
theorem Table.destroy (h : Table entry n log) (hi : entry i = some e)
    (hfinished : e.finished = true) :
    Table (Function.update entry i none) n (.destroyed e.generation :: log) := by
  refine ⟨fun j x hx => h.bound j x (update_none_eq_some.mp hx).2, ?_,
    fun j x hx => h.quiet j x (update_none_eq_some.mp hx).2, ?_, ?_, ?_, ?_⟩
  · exact fun j k x y hx hy => h.unique j k x y (update_none_eq_some.mp hx).2 (update_none_eq_some.mp hy).2
  · intro g hg
    obtain ⟨hle, hall⟩ := h.final g (by simpa using hg)
    exact ⟨hle, fun j x hx => hall j x (update_none_eq_some.mp hx).2⟩
  · intro g hg
    rcases List.mem_cons.mp hg with hg | hg
    · cases hg
      refine ⟨h.bound i e hi, fun j x hx hxg => ?_⟩
      exact (update_none_eq_some.mp hx).1 (h.unique j i x e (update_none_eq_some.mp hx).2 hi hxg)
    · obtain ⟨hle, hall⟩ := h.gone g hg
      exact ⟨hle, fun j x hx => hall j x (update_none_eq_some.mp hx).2⟩
  · intro g hg
    obtain ⟨j, x, hx, hxg, hrun, hfin⟩ := h.pending g hg
    refine ⟨j, x, ?_, hxg, hrun, hfin⟩
    rw [Function.update_of_ne, hx]
    rintro rfl
    rw [hi, Option.some.injEq] at hx
    rw [← hx, hfinished] at hfin
    cases hfin
  · exact List.pairwise_cons.mpr ⟨by simp, h.last⟩

end Table

/-! ## The workers -/

/-- What the places of the workers say of the entries. -/
structure Roster (entry : ℕ → Option Entry) (stopping : Bool) (worker : ℕ → Option Worker) :
    Prop where
  busy : ∀ w i g, worker w = some (.stepping i g) →
    ∃ e, entry i = some e ∧ e.generation = g ∧ e.executing = true
  alone : ∀ w w' i g g', worker w = some (.stepping i g) → worker w' = some (.stepping i g') →
    w = w'
  stepped : ∀ i e, entry i = some e → e.executing = true → ∃ w g, worker w = some (.stepping i g)
  asleep : ∀ w, worker w = some .asleep →
    ∀ i e, entry i = some e → e.runnable = true → e.executing = true
  returned : ∀ w, worker w = some .returned →
    stopping = true ∧ ∀ i e, entry i = some e → e.finished = true

section Roster

variable {entry : ℕ → Option Entry} {stopping : Bool} {worker : ℕ → Option Worker}

/-- The workers after `notify_all`. -/
def notified (worker : ℕ → Option Worker) (w : ℕ) : Option Worker :=
  (worker w).map fun p => if p = .asleep then .scanning else p

theorem notified_ne_asleep (w : ℕ) : notified worker w ≠ some .asleep := by
  intro h
  obtain ⟨p, -, hp⟩ := Option.map_eq_some_iff.mp h
  split_ifs at hp with hasleep
  exact hasleep hp

variable {w i : ℕ}

theorem notified_eq_some {p : Worker} (hp : p ≠ .scanning) :
    notified worker w = some p ↔ worker w = some p ∧ p ≠ .asleep := by
  unfold notified
  cases worker w with
  | none => simp
  | some q => grind

theorem Roster.notify (h : Roster entry stopping worker) :
    Roster entry stopping (notified worker) := by
  refine ⟨fun w i g hw => h.busy w i g ((notified_eq_some (by simp)).mp hw).1, ?_, ?_, ?_, ?_⟩
  · exact fun w w' i g g' hw hw' => h.alone w w' i g g'
      ((notified_eq_some (by simp)).mp hw).1 ((notified_eq_some (by simp)).mp hw').1
  · intro i e he hexecuting
    obtain ⟨w, g, hw⟩ := h.stepped i e he hexecuting
    exact ⟨w, g, (notified_eq_some (by simp)).mpr ⟨hw, by simp⟩⟩
  · exact fun w hw => absurd hw (notified_ne_asleep w)
  · exact fun w hw => h.returned w ((notified_eq_some (by simp)).mp hw).1

variable {e e' : Entry}

/-- The workers see an entry change that neither starts nor ends a step. -/
theorem Roster.change (h : Roster entry stopping worker) (hi : entry i = some e)
    (hgeneration : e'.generation = e.generation) (hexecuting : e'.executing = e.executing)
    (hfinished : e.finished = true → e'.finished = true)
    (hrunnable : (∃ w, worker w = some .asleep) → e'.runnable = true → e.runnable = true) :
    Roster (Function.update entry i (some e')) stopping worker := by
  refine ⟨?_, h.alone, ?_, ?_, ?_⟩
  · intro w j g hw
    obtain ⟨x, hx, hxg, hxe⟩ := h.busy w j g hw
    by_cases hj : j = i
    · subst hj
      rw [hi, Option.some.injEq] at hx
      subst hx
      exact ⟨e', Function.update_self .., hgeneration.trans hxg, hexecuting.trans hxe⟩
    · exact ⟨x, by rw [Function.update_of_ne hj, hx], hxg, hxe⟩
  · intro j x hx hxe
    rcases update_eq_some.mp hx with ⟨rfl, rfl⟩ | ⟨-, hx'⟩
    · exact h.stepped j e hi (hexecuting ▸ hxe)
    · exact h.stepped j x hx' hxe
  · intro w hw j x hx hxr
    rcases update_eq_some.mp hx with ⟨rfl, rfl⟩ | ⟨-, hx'⟩
    · exact hexecuting.trans (h.asleep w hw j e hi (hrunnable ⟨w, hw⟩ hxr))
    · exact h.asleep w hw j x hx' hxr
  · intro w hw
    obtain ⟨hstop, hall⟩ := h.returned w hw
    refine ⟨hstop, fun j x hx => ?_⟩
    rcases update_eq_some.mp hx with ⟨rfl, rfl⟩ | ⟨-, hx'⟩
    · exact hfinished (hall j e hi)
    · exact hall j x hx'

/-- A worker moves between two places that are not in a step. -/
theorem Roster.move {p q : Worker} (h : Roster entry stopping worker)
    (hw : worker w = some p) (hp : ∀ i g, p ≠ .stepping i g) (hq : ∀ i g, q ≠ .stepping i g)
    (hasleep : q = .asleep → ∀ i e, entry i = some e → e.runnable = true → e.executing = true)
    (hreturned : q = .returned →
      stopping = true ∧ ∀ i e, entry i = some e → e.finished = true) :
    Roster entry stopping (Function.update worker w (some q)) := by
  have hstep : ∀ v i g, Function.update worker w (some q) v = some (.stepping i g) →
      worker v = some (.stepping i g) := by
    intro v i g hv
    rcases update_eq_some.mp hv with ⟨-, hv⟩ | ⟨-, hv⟩
    · exact absurd hv.symm (hq i g)
    · exact hv
  refine ⟨fun v i g hv => h.busy v i g (hstep v i g hv), ?_, ?_, ?_, ?_⟩
  · exact fun v v' i g g' hv hv' => h.alone v v' i g g' (hstep v i g hv) (hstep v' i g' hv')
  · intro i e he hexecuting
    obtain ⟨v, g, hv⟩ := h.stepped i e he hexecuting
    refine ⟨v, g, ?_⟩
    rw [Function.update_of_ne, hv]
    rintro rfl
    rw [hw, Option.some.injEq] at hv
    exact hp i g hv
  · intro v hv
    rcases update_eq_some.mp hv with ⟨-, hv⟩ | ⟨-, hv⟩
    · exact hasleep hv.symm
    · exact h.asleep v hv
  · intro v hv
    rcases update_eq_some.mp hv with ⟨-, hv⟩ | ⟨-, hv⟩
    · exact hreturned hv.symm
    · exact h.returned v hv

/-- A worker starts the step of an entry that no worker steps. -/
theorem Roster.start (h : Roster entry stopping worker) (hw : worker w = some .scanning)
    (hi : entry i = some e) (hgeneration : e'.generation = e.generation)
    (hidle : e.executing = false) (hexecuting : e'.executing = true)
    (hfinished : e.finished = false) :
    Roster (Function.update entry i (some e')) stopping
      (Function.update worker w (some (.stepping i e.generation))) := by
  have hfree : ∀ v g, worker v ≠ some (.stepping i g) := by
    intro v g hv
    obtain ⟨x, hx, -, hxe⟩ := h.busy v i g hv
    rw [hi, Option.some.injEq] at hx
    rw [← hx, hidle] at hxe
    cases hxe
  refine ⟨?_, ?_, ?_, ?_, ?_⟩
  · intro v j g hv
    rcases update_eq_some.mp hv with ⟨-, hv'⟩ | ⟨-, hv'⟩
    · cases hv'
      exact ⟨e', Function.update_self .., hgeneration, hexecuting⟩
    · obtain ⟨x, hx, hxg, hxe⟩ := h.busy v j g hv'
      refine ⟨x, update_eq_some.mpr (.inr ⟨?_, hx⟩), hxg, hxe⟩
      rintro rfl
      exact hfree v g hv'
  · intro v v' j g g' hv hv'
    rcases update_eq_some.mp hv with ⟨hvw, heq⟩ | ⟨-, hold⟩ <;>
      rcases update_eq_some.mp hv' with ⟨hvw', heq'⟩ | ⟨-, hold'⟩
    · rw [hvw, hvw']
    · cases heq
      exact absurd hold' (hfree v' g')
    · cases heq'
      exact absurd hold (hfree v g)
    · exact h.alone v v' j g g' hold hold'
  · intro j x hx hxe
    rcases update_eq_some.mp hx with ⟨rfl, -⟩ | ⟨-, hx⟩
    · exact ⟨w, e.generation, Function.update_self ..⟩
    · obtain ⟨v, g, hv⟩ := h.stepped j x hx hxe
      refine ⟨v, g, update_eq_some.mpr (.inr ⟨?_, hv⟩)⟩
      rintro rfl
      rw [hw] at hv
      cases hv
  · intro v hv j x hx hxr
    rcases update_eq_some.mp hv with ⟨-, hv⟩ | ⟨-, hv⟩
    · cases hv
    · rcases update_eq_some.mp hx with ⟨-, rfl⟩ | ⟨-, hx⟩
      · exact hexecuting
      · exact h.asleep v hv j x hx hxr
  · intro v hv
    rcases update_eq_some.mp hv with ⟨-, hv⟩ | ⟨-, hv⟩
    · cases hv
    · rw [(h.returned v hv).2 i e hi] at hfinished
      cases hfinished

/-- A worker ends the step of its entry. -/
theorem Roster.complete {w i g : ℕ} (h : Roster entry stopping worker)
    (hawake : ∀ v, worker v ≠ some .asleep) (hw : worker w = some (.stepping i g))
    (hi : entry i = some e) (hgeneration : e'.generation = e.generation)
    (hexecuting : e'.executing = false) (hfinished : e.finished = true → e'.finished = true) :
    Roster (Function.update entry i (some e')) stopping
      (Function.update worker w (some .scanning)) := by
  refine ⟨?_, ?_, ?_, ?_, ?_⟩
  · intro v j g' hv
    rcases update_eq_some.mp hv with ⟨-, hv⟩ | ⟨hne, hv⟩
    · cases hv
    · obtain ⟨x, hx, hxg, hxe⟩ := h.busy v j g' hv
      refine ⟨x, update_eq_some.mpr (.inr ⟨?_, hx⟩), hxg, hxe⟩
      rintro rfl
      exact hne (h.alone v w j g' g hv hw)
  · intro v v' j g₁ g₂ hv hv'
    rcases update_eq_some.mp hv with ⟨-, hv⟩ | ⟨-, hv⟩
    · cases hv
    · rcases update_eq_some.mp hv' with ⟨-, hv'⟩ | ⟨-, hv'⟩
      · cases hv'
      · exact h.alone v v' j g₁ g₂ hv hv'
  · intro j x hx hxe
    rcases update_eq_some.mp hx with ⟨-, rfl⟩ | ⟨hj, hx⟩
    · rw [hexecuting] at hxe
      cases hxe
    · obtain ⟨v, g', hv⟩ := h.stepped j x hx hxe
      refine ⟨v, g', update_eq_some.mpr (.inr ⟨?_, hv⟩)⟩
      rintro rfl
      rw [hw] at hv
      cases hv
      exact hj rfl
  · intro v hv
    rcases update_eq_some.mp hv with ⟨-, hv⟩ | ⟨-, hv⟩
    · cases hv
    · exact absurd hv (hawake v)
  · intro v hv
    rcases update_eq_some.mp hv with ⟨-, hv⟩ | ⟨-, hv⟩
    · cases hv
    · obtain ⟨hstop, hall⟩ := h.returned v hv
      refine ⟨hstop, fun j x hx => ?_⟩
      rcases update_eq_some.mp hx with ⟨rfl, rfl⟩ | ⟨-, hx⟩
      · exact hfinished (hall j e hi)
      · exact hall j x hx

/-- An entry that no worker steps leaves. -/
theorem Roster.destroy (h : Roster entry stopping worker) (hi : entry i = some e)
    (hidle : e.executing = false) : Roster (Function.update entry i none) stopping worker := by
  refine ⟨?_, h.alone, ?_, ?_, ?_⟩
  · intro w j g hw
    obtain ⟨x, hx, hxg, hxe⟩ := h.busy w j g hw
    refine ⟨x, update_none_eq_some.mpr ⟨?_, hx⟩, hxg, hxe⟩
    rintro rfl
    rw [hi, Option.some.injEq] at hx
    rw [← hx, hidle] at hxe
    cases hxe
  · exact fun j x hx => h.stepped j x (update_none_eq_some.mp hx).2
  · exact fun w hw j x hx => h.asleep w hw j x (update_none_eq_some.mp hx).2
  · intro w hw
    obtain ⟨hstop, hall⟩ := h.returned w hw
    exact ⟨hstop, fun j x hx => hall j x (update_none_eq_some.mp hx).2⟩

/-- A new entry, while the pool is not stopping. -/
theorem Roster.register (h : Roster entry stopping worker) (hstop : stopping = false)
    (hi : entry i = none) (hidle : e'.executing = false) (hdormant : e'.runnable = false) :
    Roster (Function.update entry i (some e')) stopping worker := by
  refine ⟨?_, h.alone, ?_, ?_, ?_⟩
  · intro w j g hw
    obtain ⟨x, hx, hrest⟩ := h.busy w j g hw
    refine ⟨x, update_eq_some.mpr (.inr ⟨?_, hx⟩), hrest⟩
    rintro rfl
    rw [hi] at hx
    cases hx
  · intro j x hx hxe
    rcases update_eq_some.mp hx with ⟨-, rfl⟩ | ⟨-, hx'⟩
    · rw [hidle] at hxe
      cases hxe
    · exact h.stepped j x hx' hxe
  · intro w hw j x hx hxr
    rcases update_eq_some.mp hx with ⟨-, rfl⟩ | ⟨-, hx'⟩
    · rw [hdormant] at hxr
      cases hxr
    · exact h.asleep w hw j x hx' hxr
  · intro w hw
    rw [(h.returned w hw).1] at hstop
    cases hstop

/-- Workers that come, and a pool that begins to stop. -/
theorem Roster.weaken {stopping' : Bool} {worker' : ℕ → Option Worker}
    (h : Roster entry stopping worker) (hstop : stopping = true → stopping' = true)
    (hworker : ∀ w p, p ≠ .scanning → (worker' w = some p ↔ worker w = some p)) :
    Roster entry stopping' worker' := by
  refine ⟨fun w i g hw => h.busy w i g ((hworker w _ (by simp)).mp hw), ?_, ?_, ?_, ?_⟩
  · exact fun w w' i g g' hw hw' => h.alone w w' i g g' ((hworker w _ (by simp)).mp hw)
      ((hworker w' _ (by simp)).mp hw')
  · intro i e he hexecuting
    obtain ⟨w, g, hw⟩ := h.stepped i e he hexecuting
    exact ⟨w, g, (hworker w _ (by simp)).mpr hw⟩
  · exact fun w hw => h.asleep w ((hworker w _ (by simp)).mp hw)
  · intro w hw
    obtain ⟨hs, hall⟩ := h.returned w ((hworker w _ (by simp)).mp hw)
    exact ⟨hstop hs, hall⟩

/-- The workers are joined. -/
theorem Roster.join {stopping' : Bool} (h : Roster entry stopping worker)
    (hall : ∀ w p, worker w = some p → p = .returned) :
    Roster entry stopping' fun _ => none := by
  refine ⟨by simp, by simp, fun i e he hexecuting => ?_, by simp, by simp⟩
  obtain ⟨w, g, hw⟩ := h.stepped i e he hexecuting
  cases hall w _ hw

end Roster

end Sirius.ScanManager.CoordinatorPool
