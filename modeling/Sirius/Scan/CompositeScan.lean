import Sirius.Scan.CompositeDriver

/-!
# The coalescers of a composite scan

The inputs that the jobs of `CompositeDriver` prepare go through the `unit_coalescer` of their outer
lane (`op/scan/composite_scan_driver.cpp`, lines 134-218), which lets the coalescer of the inner
lane work on them, wraps the batches that come out, flushes the inner coalescer when the input is
finished, and, when the last outer lane is flushed, adds a split without input if there was no
batch.

* `advance`, `partialEmit`, `flush`: the outer coalescers.
* `Kept`: what was forwarded, what is retained, and how many outer lanes are to be flushed.
* `composite_contract`: driver and coalescers over every order of the calls.
-/

namespace Sirius.Scan.CompositeScan

open Sirius.Common Sirius.Scan.CompositeDriver

/-- What an inner coalescer makes of an input. -/
structure CursorStep (σ ι β : Type) where
  state : σ
  input : ι
  cursor : ℕ
  batch : Option β
  finished : Bool

/-- The coalescers of the inner lanes, with states `σ`, inputs `ι` and batches `β`. `Retains` says
    that a coalescer keeps something back. -/
structure Inner (σ ι β : Type) where
  init : ℕ × ℕ → σ
  advance : σ → ι → ℕ → ℕ → CursorStep σ ι β
  partialEmit : σ → σ × Option β
  flush : σ → σ × List β
  retainedBytes : σ → ℕ
  Retains : σ → Prop
  init_empty : ∀ key, ¬Retains (init key)
  /-- A flush returns what is buffered. -/
  flush_empty : ∀ s, ¬Retains (flush s).1
  /-- A batch that ends its input with no bytes retained leaves nothing. -/
  advance_empty : ∀ s input cursor quantum, (advance s input cursor quantum).batch.isSome →
    (advance s input cursor quantum).finished →
    retainedBytes (advance s input cursor quantum).state = 0 →
    ¬Retains (advance s input cursor quantum).state

variable {σ ι β : Type} {m : Inner σ ι β}

/-- An input with the inner lane that it came from. -/
structure UnitSplit (ι : Type) where
  key : ℕ × ℕ
  input : ι
  cursor : ℕ := 0
  inputFinished : Bool := false

/-- A `unit_coalescer` and the input that it is given until it reports it finished. -/
structure Outer (ι : Type) where
  flushed : Bool := false
  inner : Option (ℕ × ℕ) := none
  input : Option (UnitSplit ι) := none

/-- The coalescers, what came out of the inner ones and of the outer ones, how many splits without
    input there were, and whether the flush of an inner one returned more than one batch. -/
structure Emission (σ ι β : Type) where
  inner : ℕ × ℕ → σ
  outer : Domain → Outer ι
  waiting : List (Domain × UnitSplit ι) := []
  remaining : ℕ := 2
  produced : Bool := false
  emitted : List β := []
  forwarded : List β := []
  emptySplits : ℕ := 0
  longTail : Bool := false

/-! ## The outer coalescers -/

def Emission.setOuter (e : Emission σ ι β) (d : Domain) (outer : Outer ι) : Emission σ ι β :=
  { e with outer := Function.update e.outer d outer }

def Emission.setInner (e : Emission σ ι β) (key : ℕ × ℕ) (state : σ) : Emission σ ι β :=
  { e with inner := Function.update e.inner key state }

/-- A batch is wrapped and returned. -/
def Emission.forward (e : Emission σ ι β) (batch : β) : Emission σ ι β :=
  { e with produced := true, forwarded := e.forwarded ++ [batch] }

def Emission.emit (e : Emission σ ι β) (batches : List β) : Emission σ ι β :=
  { e with emitted := e.emitted ++ batches }

/-- `partial_emit` (lines 151-159). -/
def partialEmit (m : Inner σ ι β) (e : Emission σ ι β) (d : Domain) : Emission σ ι β :=
  match (e.outer d).inner with
  | none => e
  | some key =>
    let (state, batch) := m.partialEmit (e.inner key)
    let e := e.setInner key state
    match batch with
    | none => e
    | some batch => (e.emit [batch]).forward batch

/-- The flush of an inner coalescer after its input (lines 178-191). -/
def flushInner (m : Inner σ ι β) (e : Emission σ ι β) (d : Domain) (split : UnitSplit ι) :
    Emission σ ι β :=
  let (state, tail) := m.flush (e.inner split.key)
  let e := (e.setInner split.key state).emit tail
  match tail with
  | [] => e.setOuter d { e.outer d with inner := none, input := none }
  | [batch] => (e.setOuter d { e.outer d with inner := none, input := none }).forward batch
  -- "exceeded bounded tail"
  | _ =>
    { e.setOuter d { e.outer d with inner := none, input := some split } with
      longTail := true }

/-- `advance` (lines 160-205) of the input that the lane is given. -/
def advance (m : Inner σ ι β) (e : Emission σ ι β) (d : Domain) (quantum : ℕ) :
    Option (Emission σ ι β) :=
  match (e.outer d).input with
  | none => none
  | some split =>
    if split.inputFinished then some (flushInner m e d split)
    else
      let r := m.advance (e.inner split.key) split.input split.cursor quantum
      let e := (e.setInner split.key r.state).emit r.batch.toList
      let split := { split with input := r.input, cursor := r.cursor, inputFinished := r.finished }
      match r.batch with
      | none =>
        if r.finished then some (flushInner m e d split)
        else some (e.setOuter d { e.outer d with inner := some split.key, input := some split })
      | some batch =>
        if r.finished ∧ m.retainedBytes r.state = 0 then
          some ((e.setOuter d { e.outer d with inner := none, input := none }).forward batch)
        else
          some ((e.setOuter d
            { e.outer d with inner := some split.key, input := some split }).forward batch)

/-- `flush` (lines 209-217). -/
def flush (e : Emission σ ι β) (d : Domain) : Emission σ ι β :=
  if (e.outer d).flushed then e
  else
    let e' := { e.setOuter d { e.outer d with flushed := true } with remaining := e.remaining - 1 }
    if e.remaining = 1 ∧ e.produced = false then { e' with emptySplits := e.emptySplits + 1 }
    else e'

/-- The two outer lanes (lines 389-405). -/
def outerLanes : List Domain := [.queryOwner, .metadataWorker]

/-! ## The scan -/

/-- The driver, and what its splits went through. -/
structure System (σ ι β : Type) where
  driver : Driver := {}
  emission : Emission σ ι β

def initial (m : Inner σ ι β) : System σ ι β where
  emission := { inner := m.init, outer := fun _ => {} }

/-- The calls. A job that runs may leave an input, and a lane without one is given the next. -/
inductive Act (ι : Type) where
  | drive (act : CompositeDriver.Act)
  | prepare (j : ℕ) (input : ι)
  | give (d : Domain) (n : ℕ)
  | advance (d : Domain) (quantum : ℕ)
  | partialEmit (d : Domain)
  | flush (d : Domain)

/-- A job on a lane runs and leaves an input (lines 348-354). -/
def prepare (s : System σ ι β) (j : ℕ) (input : ι) : Option (System σ ι β) :=
  match s.driver.jobs[j]? with
  | some (.lane u k false) =>
    (s.driver.children[u]?.bind (·.lanes[k]?)).bind fun lane =>
      (CompositeDriver.step s.driver (.run j)).map fun driver =>
        { s with
          driver := driver
          emission := { s.emission with
            waiting := s.emission.waiting ++ [(lane.domain, { key := (u, k), input := input })] } }
  | _ => none

/-- An outer lane is given an input, once it has reported the one before it finished. -/
def give (e : Emission σ ι β) (d : Domain) (n : ℕ) : Option (Emission σ ι β) :=
  match (e.outer d).input, e.waiting[n]? with
  | none, some (d', split) =>
    if d' = d then
      some { e.setOuter d { e.outer d with input := some split } with
        waiting := e.waiting.eraseIdx n }
    else none
  | _, _ => none

/-- One call. -/
def step (m : Inner σ ι β) (s : System σ ι β) : Act ι → Option (System σ ι β)
  | .drive act => (CompositeDriver.step s.driver act).map fun driver => { s with driver := driver }
  | .prepare j input => prepare s j input
  | .give d n => (give s.emission d n).map fun emission => { s with emission := emission }
  | .advance d quantum =>
    (advance m s.emission d quantum).map fun emission => { s with emission := emission }
  | .partialEmit d => some { s with emission := partialEmit m s.emission d }
  | .flush d =>
    if d ∈ outerLanes then some { s with emission := flush s.emission d } else none

/-! ## What the coalescers keep -/

variable {e e' : Emission σ ι β} {d : Domain} {split split' : UnitSplit ι} {outer : Outer ι}
  {state : σ}

theorem setOuter_self : (e.setOuter d outer).outer d = outer :=
  Function.update_self ..

theorem setOuter_ne {d' : Domain} (h : d' ≠ d) : (e.setOuter d outer).outer d' = e.outer d' :=
  Function.update_of_ne h ..

theorem setInner_self {key : ℕ × ℕ} : (e.setInner key state).inner key = state :=
  Function.update_self ..

theorem setInner_ne {key key' : ℕ × ℕ} (h : key' ≠ key) :
    (e.setInner key state).inner key' = e.inner key' :=
  Function.update_of_ne h ..

theorem setOuter_outer : e.setOuter d (e.outer d) = e := by
  unfold Emission.setOuter
  rw [Function.update_eq_self]

def Emission.flushedLanes (e : Emission σ ι β) : ℕ := outerLanes.countP fun d => (e.outer d).flushed

/-- **What holds of the coalescers between the calls.** -/
structure Kept (m : Inner σ ι β) (e : Emission σ ι β) : Prop where
  forwarded : e.longTail = false → e.forwarded = e.emitted
  produced : e.produced = false → e.forwarded = []
  /-- An inner coalescer that retains something has an input in progress. -/
  retained : ∀ key, m.Retains (e.inner key) → ∃ d split, (e.outer d).input = some split ∧
    split.key = key
  inner : ∀ d key, (e.outer d).inner = some key → ∃ split, (e.outer d).input = some split ∧
    split.key = key
  remaining : e.remaining + e.flushedLanes = 2
  empty : e.emptySplits ≤ 1 ∧ (0 < e.emptySplits → e.remaining = 0)

theorem kept_init (m : Inner σ ι β) : Kept m (initial m).emission where
  forwarded := fun _ => rfl
  produced := fun _ => rfl
  retained := fun key h => absurd h (m.init_empty key)
  inner := fun _ _ h => nomatch h
  remaining := rfl
  empty := ⟨Nat.zero_le _, fun h => nomatch h⟩

theorem setOuter_flushedLanes (h : outer.flushed = (e.outer d).flushed) :
    (e.setOuter d outer).flushedLanes = e.flushedLanes := by
  unfold Emission.flushedLanes
  congr 1
  funext d'
  by_cases hd : d' = d
  · subst hd
    rw [setOuter_self, h]
  · rw [setOuter_ne hd]

/-- Where an outer lane stands after work on its input: it keeps the input, or it is done with it
    and the inner coalescer is empty. -/
inductive Settled (m : Inner σ ι β) (key : ℕ × ℕ) (state : σ) (outer : Outer ι) : Prop where
  | keeps (split : UnitSplit ι) (hinput : outer.input = some split) (hkey : split.key = key)
    (hinner : outer.inner = none ∨ outer.inner = some key)
  | done (hinput : outer.input = none) (hinner : outer.inner = none) (hempty : ¬m.Retains state)

/-- The coalescer of an input in progress does its work. -/
theorem Kept.work (h : Kept m e) (hd : (e.outer d).input = some split)
    (hflushed : outer.flushed = (e.outer d).flushed) (hsettled : Settled m split.key state outer) :
    Kept m ((e.setInner split.key state).setOuter d outer) where
  forwarded := h.forwarded
  produced := h.produced
  retained := by
    intro key hretains
    by_cases hkey : key = split.key
    · subst hkey
      cases hsettled with
      | keeps split' hinput hkey' hinner =>
        exact ⟨d, split', by rw [setOuter_self, hinput], hkey'⟩
      | done hinput hinner hempty =>
        have hstate : m.Retains ((e.setInner split.key state).inner split.key) := hretains
        rw [setInner_self] at hstate
        exact absurd hstate hempty
    · -- the coalescer of another input
      have hold : m.Retains ((e.setInner split.key state).inner key) := hretains
      rw [setInner_ne hkey] at hold
      obtain ⟨d', split', hinput, rfl⟩ := h.retained key hold
      have hne : d' ≠ d := by
        rintro rfl
        rw [hd] at hinput
        exact hkey (by rw [Option.some.inj hinput])
      exact ⟨d', split', by rw [setOuter_ne hne]; exact hinput, rfl⟩
  inner := by
    intro d' key hinner
    by_cases hd' : d' = d
    · subst hd'
      rw [setOuter_self] at hinner ⊢
      cases hsettled with
      | keeps split' hinput hkey' hinner' =>
        refine ⟨split', hinput, ?_⟩
        rcases hinner' with hnone | hsome
        · rw [hnone] at hinner
          cases hinner
        · rw [hsome] at hinner
          rw [hkey', Option.some.inj hinner]
      | done hinput hnone hempty =>
        rw [hnone] at hinner
        cases hinner
    · rw [setOuter_ne hd'] at hinner ⊢
      exact h.inner d' key hinner
  remaining := by
    have hlanes : ((e.setInner split.key state).setOuter d outer).flushedLanes
        = (e.setInner split.key state).flushedLanes := setOuter_flushedLanes hflushed
    rw [hlanes]
    exact h.remaining
  empty := h.empty

/-- A batch of an inner coalescer is forwarded. -/
theorem Kept.deliver (h : Kept m e) (batch : β) : Kept m ((e.emit [batch]).forward batch) where
  forwarded := by
    intro htail
    have heq := h.forwarded htail
    show e.forwarded ++ [batch] = e.emitted ++ [batch]
    rw [heq]
  produced := fun hproduced => nomatch hproduced
  retained := h.retained
  inner := h.inner
  remaining := h.remaining
  empty := h.empty

theorem Kept.emit_nil (h : Kept m e) : Kept m (e.emit []) := by
  unfold Emission.emit
  rwa [List.append_nil]

theorem Kept.partialEmit (h : Kept m e) : Kept m (partialEmit m e d) := by
  unfold CompositeScan.partialEmit
  split
  · exact h
  · next key hinner =>
    obtain ⟨split, hinput, rfl⟩ := h.inner d key hinner
    have hwork : Kept m (e.setInner split.key (m.partialEmit (e.inner split.key)).1) := by
      have hsettled : Settled m split.key (m.partialEmit (e.inner split.key)).1 (e.outer d) :=
        .keeps split hinput rfl (.inr hinner)
      have hkept := h.work hinput rfl hsettled
      rwa [show e.outer d = (e.setInner split.key _).outer d from rfl, setOuter_outer] at hkept
    simp only
    split
    · exact hwork
    · exact hwork.deliver _

theorem Kept.flushInner (h : Kept m e) (hd : (e.outer d).input = some split)
    (hkey : split'.key = split.key) : Kept m (flushInner m e d split') := by
  unfold CompositeScan.flushInner
  rw [hkey]
  have hempty := m.flush_empty (e.inner split.key)
  have hdone : Kept m ((e.setInner split.key (m.flush (e.inner split.key)).1).setOuter d
      { e.outer d with inner := none, input := none }) :=
    h.work hd rfl (.done rfl rfl hempty)
  rcases hflush : m.flush (e.inner split.key) with ⟨state, tail⟩
  rw [hflush] at hempty hdone
  match tail with
  | [] => exact hdone.emit_nil
  | [batch] => exact hdone.deliver batch
  | first :: second :: rest =>
    have hkeeps : Kept m ((e.setInner split.key state).setOuter d
        { e.outer d with inner := none, input := some split' }) :=
      h.work hd rfl (.keeps split' rfl hkey (.inl rfl))
    refine ⟨?_, hkeeps.produced, hkeeps.retained, hkeeps.inner, hkeeps.remaining, hkeeps.empty⟩
    exact fun hlong => nomatch hlong

/-- The inner coalescer has advanced without a batch. -/
theorem Kept.quiet (h : Kept m e) (hd : (e.outer d).input = some split) (state : σ) :
    Kept m ((e.setInner split.key state).emit []) := by
  have hinner : (e.outer d).inner = none ∨ (e.outer d).inner = some split.key := by
    cases hinner : (e.outer d).inner with
    | none => exact .inl rfl
    | some key =>
      obtain ⟨split', hinput, rfl⟩ := h.inner d key hinner
      rw [Option.some.inj (hd.symm.trans hinput)]
      exact .inr rfl
  have hsettled : Settled m split.key state (e.outer d) := .keeps split hd rfl hinner
  have hkept := h.work hd rfl hsettled
  rw [show e.outer d = (e.setInner split.key state).outer d from rfl, setOuter_outer] at hkept
  exact hkept.emit_nil

theorem Kept.advance {quantum : ℕ} (h : Kept m e) (hstep : advance m e d quantum = some e') :
    Kept m e' := by
  unfold CompositeScan.advance at hstep
  split at hstep
  · cases hstep
  · next split hd =>
    split_ifs at hstep with hfinished
    · obtain rfl := Option.some.inj hstep
      exact h.flushInner hd rfl
    · have hempty := m.advance_empty (e.inner split.key) split.input split.cursor quantum
      generalize m.advance (e.inner split.key) split.input split.cursor quantum = r at hstep hempty
      rcases r with ⟨state, input, cursor, batch, finished⟩
      have hkept : Kept m ((e.setInner split.key state).setOuter d
          { e.outer d with
            inner := some split.key
            input := some { split with
              input := input, cursor := cursor, inputFinished := finished } }) :=
        h.work hd rfl (.keeps _ rfl rfl (.inr rfl))
      cases batch with
      | none =>
        have hquiet := h.quiet hd state
        simp only at hstep
        split_ifs at hstep
        · obtain rfl := Option.some.inj hstep
          exact hquiet.flushInner hd rfl
        · obtain rfl := Option.some.inj hstep
          exact hkept.emit_nil
      | some batch =>
        simp only at hstep
        split_ifs at hstep with hdone
        · obtain rfl := Option.some.inj hstep
          have hkept : Kept m ((e.setInner split.key state).setOuter d
              { e.outer d with inner := none, input := none }) :=
            h.work hd rfl (.done rfl rfl (hempty rfl hdone.1 hdone.2))
          exact hkept.deliver batch
        · obtain rfl := Option.some.inj hstep
          exact hkept.deliver batch

theorem Kept.give {n : ℕ} (h : Kept m e) (hstep : give e d n = some e') : Kept m e' := by
  unfold CompositeScan.give at hstep
  split at hstep
  · next d' split hnone hwaiting =>
    split_ifs at hstep with hd
    obtain rfl := Option.some.inj hstep
    refine ⟨h.forwarded, h.produced, ?_, ?_, ?_, h.empty⟩
    · intro key hretains
      obtain ⟨d', split', hinput, hkey⟩ := h.retained key hretains
      have hne : d' ≠ d := by
        rintro rfl
        rw [hnone] at hinput
        cases hinput
      exact ⟨d', split', (congrArg Outer.input (setOuter_ne hne)).trans hinput, hkey⟩
    · intro d' key hinner
      have hinner' : ((e.setOuter d { e.outer d with input := some split }).outer d').inner
          = some key := hinner
      by_cases hd' : d' = d
      · subst hd'
        rw [setOuter_self] at hinner'
        obtain ⟨split', hinput, -⟩ := h.inner d' key hinner'
        rw [hnone] at hinput
        cases hinput
      · rw [setOuter_ne hd'] at hinner'
        obtain ⟨split', hinput, hkey⟩ := h.inner d' key hinner'
        exact ⟨split', (congrArg Outer.input (setOuter_ne hd')).trans hinput, hkey⟩
    · have hlanes : (e.setOuter d { e.outer d with input := some split }).flushedLanes
          = e.flushedLanes := setOuter_flushedLanes rfl
      exact (congrArg (e.remaining + ·) hlanes).trans h.remaining
  · cases hstep

/-- One more outer lane is flushed. -/
theorem flushedLanes_flush (hd : d ∈ outerLanes) (hflushed : (e.outer d).flushed = false) :
    (e.setOuter d { e.outer d with flushed := true }).flushedLanes = e.flushedLanes + 1 := by
  unfold Emission.flushedLanes Emission.setOuter outerLanes
  simp only [outerLanes, List.mem_cons, List.not_mem_nil, or_false] at hd
  rcases hd with rfl | rfl
  · simp [List.countP_cons, hflushed, Function.update]
  · simp [List.countP_cons, hflushed, Function.update, Nat.add_comm]

theorem setFlushed_kept (d' : Domain) :
    ((e.setOuter d { e.outer d with flushed := true }).outer d').input = (e.outer d').input ∧
      ((e.setOuter d { e.outer d with flushed := true }).outer d').inner = (e.outer d').inner := by
  by_cases hd : d' = d
  · subst hd
    rw [setOuter_self]
    exact ⟨rfl, rfl⟩
  · rw [setOuter_ne hd]
    exact ⟨rfl, rfl⟩

theorem Kept.remaining_pos (h : Kept m e) (hd : d ∈ outerLanes)
    (hflushed : (e.outer d).flushed = false) : 0 < e.remaining := by
  have hremaining := h.remaining
  have hmore := flushedLanes_flush hd hflushed
  have hle : (e.setOuter d { e.outer d with flushed := true }).flushedLanes ≤ 2 :=
    List.countP_le_length
  omega

/-- The last lane to be flushed adds the split without input, if there was no batch. -/
theorem Kept.flush (h : Kept m e) (hd : d ∈ outerLanes) : Kept m (flush e d) := by
  have hkept : (e.outer d).flushed = false → ∀ empty, empty ≤ 1 →
      (0 < empty → e.remaining - 1 = 0) →
      Kept m { e.setOuter d { e.outer d with flushed := true } with
        remaining := e.remaining - 1
        emptySplits := empty } := by
    intro hflushed empty hone hlast
    refine ⟨h.forwarded, h.produced, ?_, ?_, ?_, hone, hlast⟩
    · intro key hretains
      obtain ⟨d', split, hinput, hkey⟩ := h.retained key hretains
      exact ⟨d', split, (setFlushed_kept d').1.trans hinput, hkey⟩
    · intro d' key hinner
      obtain ⟨split, hinput, hkey⟩ := h.inner d' key ((setFlushed_kept d').2.symm.trans hinner)
      exact ⟨split, (setFlushed_kept d').1.trans hinput, hkey⟩
    · have hmore := flushedLanes_flush hd hflushed
      have hpos := h.remaining_pos hd hflushed
      have hremaining := h.remaining
      show e.remaining - 1 + (e.setOuter d { e.outer d with flushed := true }).flushedLanes = 2
      omega
  have hempty := h.empty
  unfold CompositeScan.flush
  split_ifs with hflushed hlast
  · exact h
  · refine hkept (Bool.eq_false_iff.mpr hflushed) (e.emptySplits + 1) ?_ fun _ => by omega
    omega
  · have hpos := h.remaining_pos hd (Bool.eq_false_iff.mpr hflushed)
    exact hkept (Bool.eq_false_iff.mpr hflushed) e.emptySplits hempty.1 fun h => by omega

/-! ## Every order of the calls -/

/-- The driver is sound, and every input that was emitted is accounted for. -/
structure Sound (m : Inner σ ι β) (s : System σ ι β) : Prop where
  driver : CompositeDriver.Sound s.driver
  emission : Kept m s.emission

variable {s s' : System σ ι β}

theorem Sound.step {act : Act ι} (h : Sound m s) (hstep : step m s act = some s') :
    Sound m s' := by
  cases act with
  | drive act =>
    obtain ⟨driver, hdriver, rfl⟩ := Option.map_eq_some_iff.mp hstep
    exact ⟨h.driver.step hdriver, h.emission⟩
  | prepare j input =>
    have hprepare : prepare s j input = some s' := hstep
    unfold prepare at hprepare
    split at hprepare
    · obtain ⟨lane, -, hlane⟩ := Option.bind_eq_some_iff.mp hprepare
      obtain ⟨driver, hdriver, rfl⟩ := Option.map_eq_some_iff.mp hlane
      have hkept := h.emission
      exact ⟨h.driver.step hdriver, hkept.forwarded, hkept.produced, hkept.retained, hkept.inner,
        hkept.remaining, hkept.empty⟩
    · cases hprepare
  | give d n =>
    obtain ⟨emission, hemission, rfl⟩ := Option.map_eq_some_iff.mp hstep
    exact ⟨h.driver, h.emission.give hemission⟩
  | advance d quantum =>
    obtain ⟨emission, hemission, rfl⟩ := Option.map_eq_some_iff.mp hstep
    exact ⟨h.driver, h.emission.advance hemission⟩
  | partialEmit d =>
    obtain rfl := Option.some.inj hstep
    exact ⟨h.driver, h.emission.partialEmit⟩
  | flush d =>
    obtain ⟨hd, heq⟩ := Option.ite_none_right_eq_some.mp hstep
    obtain rfl := Option.some.inj heq
    exact ⟨h.driver, h.emission.flush hd⟩

/-- The composite scan in a state that its calls reach. -/
structure Contract (m : Inner σ ι β) (s : System σ ι β) : Prop where
  /-- The next child is discovered only when every child before is over. -/
  discovered : ∀ j result s', step m s (.drive (.discover j result)) = some s' →
    ∀ u child, s.driver.children[u]? = some child → Over s.driver u child
  /-- The children before the latest are over. -/
  behind : ∀ u child, s.driver.children[u]? = some child → u + 1 < s.driver.children.length →
    Over s.driver u child
  /-- No close hook runs twice. -/
  once : ∀ child ∈ s.driver.children, ∀ lane ∈ child.lanes, lane.closes ≤ 1
  /-- The batches of the inner coalescers are forwarded, each once. -/
  forwarded : s.emission.longTail = false → s.emission.forwarded = s.emission.emitted
  /-- An inner coalescer retains nothing but of an input in progress. -/
  retained : ∀ key, (∀ d split, (s.emission.outer d).input = some split → split.key ≠ key) →
    ¬m.Retains (s.emission.inner key)
  /-- There is at most one split without input. -/
  empty : s.emission.emptySplits ≤ 1
  /-- It comes with the flush of the last lane, and only if no batch was forwarded. -/
  emptied : ∀ act s', step m s act = some s' →
    s.emission.emptySplits < s'.emission.emptySplits → (∃ d, act = .flush d) ∧
    s.emission.forwarded = [] ∧ ∀ d ∈ outerLanes, (s'.emission.outer d).flushed

theorem flushInner_emptySplits : (flushInner m e d split).emptySplits = e.emptySplits := by
  unfold flushInner
  simp only
  split <;> rfl

theorem partialEmit_emptySplits : (partialEmit m e d).emptySplits = e.emptySplits := by
  unfold partialEmit
  split
  · rfl
  · simp only
    split <;> rfl

theorem advance_emptySplits {quantum : ℕ} (h : advance m e d quantum = some e') :
    e'.emptySplits = e.emptySplits := by
  unfold advance at h
  split at h
  · cases h
  · next split hd =>
    split_ifs at h with hfinished
    · rw [← Option.some.inj h, flushInner_emptySplits]
    · generalize m.advance (e.inner split.key) split.input split.cursor quantum = r at h
      rcases r with ⟨state, input, cursor, batch, finished⟩
      cases batch with
      | none =>
        simp only at h
        split_ifs at h
        · rw [← Option.some.inj h, flushInner_emptySplits]
          rfl
        · rw [← Option.some.inj h]
          rfl
      | some batch =>
        simp only at h
        split_ifs at h
        · rw [← Option.some.inj h]
          rfl
        · rw [← Option.some.inj h]
          rfl

theorem give_emptySplits {n : ℕ} (h : give e d n = some e') : e'.emptySplits = e.emptySplits := by
  unfold give at h
  split at h
  · split_ifs at h
    rw [← Option.some.inj h]
    rfl
  · cases h

/-- Only a flush adds a split without input. -/
theorem exists_flush {act : Act ι} (hstep : step m s act = some s')
    (hmore : s.emission.emptySplits < s'.emission.emptySplits) : ∃ d, act = .flush d := by
  cases act with
  | drive act =>
    obtain ⟨driver, -, rfl⟩ := Option.map_eq_some_iff.mp hstep
    exact absurd hmore (lt_irrefl _)
  | prepare j input =>
    have hprepare : prepare s j input = some s' := hstep
    unfold prepare at hprepare
    split at hprepare
    · obtain ⟨lane, -, hlane⟩ := Option.bind_eq_some_iff.mp hprepare
      obtain ⟨driver, -, rfl⟩ := Option.map_eq_some_iff.mp hlane
      exact absurd hmore (lt_irrefl _)
    · cases hprepare
  | give d n =>
    obtain ⟨emission, hemission, rfl⟩ := Option.map_eq_some_iff.mp hstep
    exact absurd hmore (give_emptySplits hemission).not_gt
  | advance d quantum =>
    obtain ⟨emission, hemission, rfl⟩ := Option.map_eq_some_iff.mp hstep
    exact absurd hmore (advance_emptySplits hemission).not_gt
  | partialEmit d =>
    obtain rfl := Option.some.inj hstep
    exact absurd hmore partialEmit_emptySplits.not_gt
  | flush d => exact ⟨d, rfl⟩

/-- The flush that adds a split without input is the last one, with nothing forwarded. -/
theorem Kept.emptied (h : Kept m e) (hd : d ∈ outerLanes)
    (hmore : e.emptySplits < (CompositeScan.flush e d).emptySplits) :
    e.forwarded = [] ∧ ∀ d' ∈ outerLanes, ((CompositeScan.flush e d).outer d').flushed := by
  have hkept : Kept m (CompositeScan.flush e d) := h.flush hd
  have hproduced : e.produced = false := by
    unfold CompositeScan.flush at hmore
    split_ifs at hmore with hflushed hlast
    · exact absurd hmore (lt_irrefl _)
    · exact hlast.2
    · exact absurd hmore (lt_irrefl _)
  refine ⟨h.produced hproduced, ?_⟩
  -- with nothing remaining every lane is flushed
  have hnone := hkept.empty.2 (Nat.zero_lt_of_lt hmore)
  have hall := hkept.remaining
  rw [hnone, Nat.zero_add] at hall
  exact List.countP_eq_length.mp hall

theorem Sound.contract (h : Sound m s) : Contract m s where
  discovered := by
    intro j result s' hstep u child hu
    obtain ⟨driver, hdriver, -⟩ := Option.map_eq_some_iff.mp hstep
    exact h.driver.over_of_discover hdriver hu
  behind := by
    intro u child hu hlt
    refine h.driver.over hu (h.driver.past u child hu fun hcurrent => ?_)
    have := h.driver.latest u hcurrent
    omega
  once := by
    intro child hchild lane hlane
    rw [(h.driver.flags child hchild).once lane hlane]
    split_ifs
    · exact le_rfl
    · exact Nat.zero_le _
  forwarded := h.emission.forwarded
  retained := by
    intro key hnone hretains
    obtain ⟨d, split, hinput, hkey⟩ := h.emission.retained key hretains
    exact hnone d split hinput hkey
  empty := h.emission.empty.1
  emptied := by
    intro act s' hstep hmore
    obtain ⟨d, rfl⟩ := exists_flush hstep hmore
    obtain ⟨hd, heq⟩ := Option.ite_none_right_eq_some.mp hstep
    obtain rfl := Option.some.inj heq
    exact ⟨⟨d, rfl⟩, h.emission.emptied hd hmore⟩

/-- **The composite scan over every order of its calls.** -/
theorem composite_contract {acts : List (Act ι)} (hrun : run (step m) (initial m) acts = some s) :
    Contract m s :=
  (run_invariant (fun _ _ _ hs h => hs.step h) ⟨sound_init, kept_init m⟩ hrun : Sound m s).contract

/-- A coalescer that keeps one input until it is flushed. -/
def buffering : Inner (Option ℕ) ℕ ℕ where
  init := fun _ => none
  advance := fun _ input cursor _ => ⟨some input, input, cursor + 1, none, true⟩
  partialEmit := fun buffer => (none, buffer)
  flush := fun buffer => (none, buffer.toList)
  retainedBytes := fun buffer => if buffer.isSome then 17 else 0
  Retains := fun buffer => buffer.isSome
  init_empty := fun _ => Bool.false_ne_true
  flush_empty := fun _ => Bool.false_ne_true
  advance_empty := fun _ _ _ _ hbatch => nomatch hbatch

/-- One child with a metadata lane, one input, and no child after it. -/
def shownActs : List (Act ℕ) :=
  [.drive (.claim .queryOwner (fun _ => .pending) false), .drive (.closeBefore 0 false false),
    .drive (.discover 0 (.child [.metadataWorker])), .drive (.retire 0),
    .drive (.claim .metadataWorker (fun _ => .ready) false), .prepare 1 5, .drive (.retire 1),
    .drive (.claim .metadataWorker (fun _ => .exhausted) false),
    .drive (.claim .queryOwner (fun _ => .pending) false), .give .metadataWorker 0,
    .advance .metadataWorker 1, .drive (.closeBefore 2 false false), .drive (.discover 2 .noMore),
    .flush .queryOwner, .flush .metadataWorker]

theorem composite_contract_shownActs :
    ∃ s, run (step buffering) (initial buffering) shownActs = some s ∧ Contract buffering s ∧
      s.emission.forwarded = [5] ∧ s.emission.emptySplits = 0 ∧ s.driver.done = true := by
  obtain ⟨s, hs⟩ : ∃ s, run (step buffering) (initial buffering) shownActs = some s := ⟨_, rfl⟩
  refine ⟨s, hs, composite_contract hs, ?_⟩
  obtain rfl := Option.some.inj hs
  exact ⟨rfl, rfl, rfl⟩

/-- A coalescer that splits what it keeps when it is flushed. -/
def splitting : Inner (Option ℕ) ℕ ℕ := { buffering with
  flush := fun buffer => (none, buffer.toList ++ buffer.toList)
  flush_empty := fun _ => Bool.false_ne_true }

/-- The two batches of a flush are not forwarded. -/
theorem long_tail_is_dropped :
    ∃ s, run (step splitting) (initial splitting) shownActs = some s ∧
      s.emission.emitted = [5, 5] ∧ s.emission.forwarded = [] := by
  obtain ⟨s, hs⟩ : ∃ s, run (step splitting) (initial splitting) shownActs = some s := ⟨_, rfl⟩
  refine ⟨s, hs, ?_⟩
  obtain rfl := Option.some.inj hs
  exact ⟨rfl, rfl⟩

end Sirius.Scan.CompositeScan
