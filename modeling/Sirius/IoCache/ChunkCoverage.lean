import Sirius.IoCache.ChunkPins

/-!
# Bytes advertised are bytes written

The threads of `ChunkPins` together with what they do to the staging buffer of
the chunk. A successful `take_loading` or `take_loading_merging` starts a load
of the extent it returned. The load writes bytes of `fill_span` of that extent
and ends with `mark_cached`, once all of them are written, or with
`mark_load_failed`. A buffer is attached before `mark_allocated` and is fresh
then. Extents passed in have at most `max_fill_pages` pages, as those of
`needed_fill` and `merge` do (`neededFill_encodable`, `encodable_merge`).

* `pinned_bytes_written`: what a pin of `try_pin_covering` was taken for is written.
-/

namespace Sirius.IoCache.ChunkState

open Sirius.Common Sirius.Common.CasLoop ChunkFill

/-! ## The system -/

/-- A load that was taken and not ended yet. `ender` is the thread that has
    called `mark_cached` or `mark_load_failed` for it. -/
structure Load (T : Type*) where
  id : ℕ
  fill : ChunkFill
  ender : Option T := none

/-- The chunk and its buffer: `writer b` is the load that last wrote byte `b`
    of the current buffer, `last` the load that last completed into it. `held`
    lists the pins that are held, each by the operation that took it, and
    `giving t` is the pin that thread `t` is giving back. -/
structure Loads (T : Type*) where
  pins : Pins T
  held : List Op := []
  giving : T → Option Op := fun _ => none
  load : Option (Load T) := none
  nextId : ℕ := 0
  writer : ℕ → Option ℕ := fun _ => none
  last : Option ℕ := none

/-- A step of a thread on the word, the call of `release_read` that gives back
    a pin, or a write of the running load. -/
inductive Move (T : Type*) where
  | act (a : Act Op T)
  | release (t : T) (pin : Op)
  | write (b : ℕ)

/-- An extent passed in fits its field. -/
def Op.Promises : Op → Prop
  | .takeLoadingMerging want | .mergeFill want => Encodable want
  | _ => True

instance : (op : Op) → Decidable op.Promises
  | .takeLoadingMerging want | .mergeFill want => inferInstanceAs (Decidable (want.pages < 2 ^ 14))
  | .markQueued | .markAllocated | .markCached | .markLoadFailed | .markEmpty | .takeLoading
  | .acquireRead | .tryPinCovering .. | .releaseRead | .markEvicting _ | .addSubscriber
  | .dropSubscriber => isTrue trivial

/-- The operations that end a load. -/
def Op.endsLoad : Op → Bool
  | .markCached | .markLoadFailed => true
  | _ => false

/-- The bytes a loader fills for an extent. -/
def spanBytes (off cb : ℕ) (f : ChunkFill) : Finset ℕ :=
  Finset.Ico (fillSpan f off cb).1 (fillSpan f off cb).2

namespace Loads

variable {T : Type*} [DecidableEq T] (off cb : ℕ)

def start : Loads T := { pins := Pins.start }

/-- A load is ended once, with `mark_cached` only after all its bytes are written. -/
def MayEnd (s : Loads T) (op : Op) : Prop :=
  ∃ l ∈ s.load, l.ender = none ∧
    (op = .markCached → ∀ b ∈ spanBytes off cb l.fill, s.writer b = some l.id)

def Allowed (s : Loads T) : Act Op T → Prop
  | .call _ op => op ≠ .releaseRead ∧ op.Promises ∧ (op.endsLoad = true → s.MayEnd off cb op)
  | _ => True

instance (s : Loads T) (op : Op) : Decidable (s.MayEnd off cb op) :=
  inferInstanceAs (Decidable (∃ l ∈ s.load, _ ∧ (_ → ∀ b ∈ Finset.Ico _ _, _ = _)))

instance (s : Loads T) : (a : Act Op T) → Decidable (s.Allowed off cb a)
  | .call _ op => inferInstanceAs (Decidable (op ≠ .releaseRead ∧ op.Promises ∧ (_ → _)))
  | .retry _ | .finish _ => isTrue trivial

/-- The thread that calls `mark_cached` or `mark_load_failed` ends the load. -/
def begin (s : Loads T) : Act Op T → Loads T
  | .call t op => if op.endsLoad then { s with load := s.load.map ({ · with ender := some t }) } else s
  | _ => s

/-- What the return of an operation means for the buffer and the pins. -/
def observe (s : Loads T) : Option (Op × Ret) → Loads T
  | some (op, r) =>
    if r.ok then
      match op with
      | .takeLoading | .takeLoadingMerging _ =>
        { s with load := r.out.map ({ id := s.nextId, fill := · }), nextId := s.nextId + 1 }
      | .markCached => { s with last := s.load.map Load.id, load := none }
      | .markLoadFailed => { s with load := none }
      | .markAllocated => { s with writer := fun _ => none, last := none }
      | .acquireRead | .tryPinCovering .. => { s with held := op :: s.held }
      | _ => s
    else s
  | none => s

/-- The pin a thread was giving back is gone when it returns. -/
def settle (s : Loads T) : Act Op T → Loads T
  | .finish t => { s with giving := Function.update s.giving t none }
  | _ => s

def step (s : Loads T) : Move T → Option (Loads T)
  | .act a =>
    if s.Allowed off cb a then
      (s.pins.step a).bind fun p =>
        (stepRet attempt s.pins.cfg a).map fun x =>
          { ((s.begin a).observe x.2).settle a with pins := p }
    else none
  | .release t pin =>
    if pin ∈ s.held then
      (s.pins.step (.call t .releaseRead)).map fun p =>
        { s with pins := p, held := s.held.erase pin,
                 giving := Function.update s.giving t (some pin) }
    else none
  | .write b =>
    match s.load with
    | some l =>
      if l.ender = none ∧ b ∈ spanBytes off cb l.fill then
        some { s with writer := Function.update s.writer b (some l.id) }
      else none
    | none => none

/-- The pin count stays below its limit. -/
def BelowLimit (s : Loads T) : Move T → Prop
  | .act a => s.pins.BelowLimit a
  | _ => True

instance (s : Loads T) : (m : Move T) → Decidable (s.BelowLimit m)
  | .act a => inferInstanceAs (Decidable (s.pins.BelowLimit a))
  | .release _ _ | .write _ => isTrue trivial

/-- A pin that was reported and whose `release_read` has not taken effect. -/
def Outstanding (s : Loads T) (pin : Op) : Prop := pin ∈ s.held ∨ ∃ t, s.giving t = some pin

/-! ## The invariant -/

variable {off cb : ℕ}

/-- What every reachable state satisfies. -/
structure Inv (off cb : ℕ) (s : Loads T) : Prop where
  pins : s.pins.Inv
  loading : ∀ l, s.load = some l →
    hasState s.pins.cfg.word .loading = true ∧ decode s.pins.cfg.word = l.fill
  idle : s.load = none → hasState s.pins.cfg.word .loading = false
  ends : ∀ t op cur, s.pins.cfg.pending t = some (op, cur) → op.endsLoad = true →
    ∃ l, s.load = some l ∧ l.ender = some t ∧
      (op = .markCached → ∀ b ∈ spanBytes off cb l.fill, s.writer b = some l.id)
  promises : ∀ t op cur, s.pins.cfg.pending t = some (op, cur) → op.Promises
  readable : readable s.pins.cfg.word = true → ∃ id, s.last = some id ∧
    ∀ b ∈ spanBytes off cb (decode s.pins.cfg.word), s.writer b = some id
  count : s.held.length + s.pins.releaseCalls = s.pins.pinned
  gives : ∀ t pin, s.giving t = some pin → ∃ cur, s.pins.cfg.pending t = some (.releaseRead, cur)
  covered : ∀ pin, s.Outstanding pin → ∀ lo hi, pin = .tryPinCovering off cb lo hi →
    covers (decode s.pins.cfg.word) off cb lo hi = true

omit [DecidableEq T] in
theorem inv_start : Inv off cb (start : Loads T) where
  pins := Pins.inv_start
  loading := by rintro l ⟨⟩
  idle := fun _ => show hasState 0 .loading = false by decide
  ends := by rintro t op cur ⟨⟩
  promises := by rintro t op cur ⟨⟩
  readable := fun h => absurd h (show ¬ChunkState.readable 0 = true by decide)
  count := rfl
  gives := by rintro t pin ⟨⟩
  covered := by
    rintro pin (h | ⟨t, h⟩)
    · cases h
    · cases h

omit [DecidableEq T] in
theorem Inv.outstanding_lt {s : Loads T} (h : Inv off cb s) {pin : Op} (hp : s.Outstanding pin) :
    s.pins.released < s.pins.pinned := by
  have hcount := h.count
  rcases hp with hp | ⟨t, hp⟩
  · have : 0 < s.held.length := List.length_pos_of_mem hp
    have := h.pins.running
    omega
  · obtain ⟨cur, hcur⟩ := h.gives t pin hp
    have := h.pins.running_lt hcur
    omega

omit [DecidableEq T] in
/-- With a pin outstanding the chunk is in use. -/
theorem Inv.outstanding_readable {s : Loads T} (h : Inv off cb s) {pin : Op}
    (hp : s.Outstanding pin) : ChunkState.readable s.pins.cfg.word = true := by
  have := (h.pins.finds_pin (h.outstanding_lt hp)).1
  simp [ChunkState.readable, this]

/-! ### Steps that leave the word alone -/

/-- A thread reads the word inside `op`. -/
theorem Inv.read {s : Loads T} (h : Inv off cb s) {p : Pins T} {l' : Option (Load T)}
    {held' : List Op} {giving' : T → Option Op} {t : T} {op : Op} (hp : p.Inv)
    (hw : p.cfg.word = s.pins.cfg.word)
    (hpend : p.cfg.pending = Function.update s.pins.cfg.pending t (some (op, s.pins.cfg.word)))
    (hcount : held'.length + p.releaseCalls = p.pinned) (hop : op.Promises)
    (hout : ∀ pin, pin ∈ held' ∨ (∃ u, giving' u = some pin) → s.Outstanding pin)
    (hgive : ∀ u pin, giving' u = some pin → u = t ∧ op = .releaseRead ∨ s.giving u = some pin)
    (hself : ∀ pin, s.giving t = some pin → op = .releaseRead)
    (hl : l' = s.load ∧ (op.endsLoad = true → ∃ l, s.load = some l ∧ l.ender = some t ∧
        (op = .markCached → ∀ b ∈ spanBytes off cb l.fill, s.writer b = some l.id)) ∨
      op.endsLoad = true ∧ s.MayEnd off cb op ∧ l' = s.load.map ({ · with ender := some t })) :
    Inv off cb { s with pins := p, load := l', held := held', giving := giving' } := by
  refine ⟨hp, ?_, ?_, ?_, ?_, ?_, hcount, ?_, ?_⟩
  · intro l hl'
    simp only [hw]
    rcases hl with ⟨rfl, -⟩ | ⟨-, -, rfl⟩
    · exact h.loading l hl'
    · obtain ⟨l0, hl0, rfl⟩ := Option.map_eq_some_iff.mp hl'
      exact h.loading l0 hl0
  · intro hl'
    simp only [hw]
    rcases hl with ⟨rfl, -⟩ | ⟨-, -, rfl⟩
    · exact h.idle hl'
    · exact h.idle (Option.map_eq_none_iff.mp hl')
  · intro u o cur hu ho
    simp only [hpend] at hu
    by_cases hut : u = t
    · subst hut
      rw [Function.update_self] at hu
      cases hu
      rcases hl with ⟨rfl, hend⟩ | ⟨-, ⟨l0, hl0, -, hwr⟩, rfl⟩
      · exact hend ho
      · exact ⟨{ l0 with ender := some u }, by simp only [Option.mem_def.mp hl0, Option.map_some],
          rfl, hwr⟩
    · rw [Function.update_of_ne hut] at hu
      obtain ⟨l0, hl0, hu0, hwr⟩ := h.ends u o cur hu ho
      rcases hl with ⟨rfl, -⟩ | ⟨-, ⟨l1, hl1, hnone, -⟩, rfl⟩
      · exact ⟨l0, hl0, hu0, hwr⟩
      · rw [Option.mem_def, hl0] at hl1
        cases hl1
        rw [hu0] at hnone
        cases hnone
  · simp only [hpend]
    exact Pins.forall_pending_update (P := fun _ o _ => o.Promises) h.promises
      (by rintro o w ⟨⟩; exact hop)
  · simp only [hw]; exact h.readable
  · intro u pin hu
    simp only [hpend]
    by_cases hut : u = t
    · subst hut
      rw [Function.update_self]
      rcases hgive u pin hu with ⟨-, rfl⟩ | hg
      · exact ⟨_, rfl⟩
      · rw [hself pin hg]
        exact ⟨_, rfl⟩
    · rw [Function.update_of_ne hut]
      rcases hgive u pin hu with ⟨rfl, -⟩ | hg
      · exact absurd rfl hut
      · exact h.gives u pin hg
  · simp only [hw]
    exact fun pin hpin => h.covered pin (hout pin hpin)

theorem inv_write {s s' : Loads T} {b : ℕ} (h : Inv off cb s)
    (hs : s.step off cb (.write b) = some s') : Inv off cb s' := by
  simp only [step] at hs
  split at hs
  swap
  · cases hs
  rename_i l hl
  split_ifs at hs with hg
  cases hs
  refine ⟨h.pins, h.loading, h.idle, ?_, h.promises, ?_, h.count, h.gives, h.covered⟩
  · intro t op cur ht hop
    obtain ⟨l', hl', he, -⟩ := h.ends t op cur ht hop
    rw [hl] at hl'
    cases hl'
    rw [hg.1] at he
    cases he
  · intro hr
    -- a load is running, so the chunk is not readable
    have hst := (h.loading l hl).1
    obtain ⟨v, hwf, hw, -⟩ := h.pins.word
    simp only [hw] at hr hst
    rw [hasState_pack hwf, decide_eq_true_eq] at hst
    rw [readable_pack hwf, hst] at hr
    exact absurd hr (by decide)

theorem inv_release {s s' : Loads T} {t : T} {pin : Op} (h : Inv off cb s)
    (hs : s.step off cb (.release t pin) = some s') : Inv off cb s' := by
  simp only [step] at hs
  split_ifs at hs with hmem
  obtain ⟨p, hp, rfl⟩ := Option.map_eq_some_iff.mp hs
  have hpI : p.Inv := Pins.inv_step h.pins (guarded_eq_some.mpr ⟨by trivial, hp⟩)
  obtain ⟨hidle, rfl⟩ := Pins.step_call hp
  refine Inv.read h hpI rfl rfl ?_ trivial ?_ ?_ (fun _ _ => rfl) (Or.inl ⟨rfl, by rintro ⟨⟩⟩)
  · have := List.length_erase_add_one hmem
    have := h.count
    simp only [Pins.calls, if_pos trivial]
    omega
  · rintro q (hq | ⟨u, hq⟩)
    · exact Or.inl (List.mem_of_mem_erase hq)
    · by_cases hu : u = t
      · subst hu
        rw [Function.update_self] at hq
        cases hq
        exact Or.inl hmem
      · rw [Function.update_of_ne hu] at hq
        exact Or.inr ⟨u, hq⟩
  · intro u q hq
    by_cases hu : u = t
    · exact Or.inl ⟨hu, rfl⟩
    · rw [Function.update_of_ne hu] at hq
      exact Or.inr hq

/-! ### Returns -/

/-- A return of `op` by `t` that leaves the word `pack v'`. -/
theorem Inv.finish {s s' : Loads T} (h : Inv off cb s) {t : T} {op : Op} {cur : Word} {v' : View}
    (ht : s.pins.cfg.pending t = some (op, cur)) (hp : s'.pins.Inv)
    (hpend : s'.pins.cfg.pending = Function.update s.pins.cfg.pending t none)
    (hwf : v'.Wf) (hw : s'.pins.cfg.word = pack v')
    (hgiving : s'.giving = Function.update s.giving t none)
    (hcount : s'.held.length + s'.pins.releaseCalls = s'.pins.pinned)
    (hload : ∀ l, s'.load = some l → v'.state = .loading ∧ v'.fill = l.fill)
    (hidle : s'.load = none → v'.state ≠ .loading)
    (hends : s'.load = s.load ∧ s'.writer = s.writer ∨ s.load = none ∨ op.endsLoad = true)
    (hread : v'.Readable → ∃ id, s'.last = some id ∧
      ∀ b ∈ spanBytes off cb v'.fill, s'.writer b = some id)
    (hcov : ∀ pin, s'.Outstanding pin → ∀ lo hi, pin = .tryPinCovering off cb lo hi →
      covers v'.fill off cb lo hi = true) :
    Inv off cb s' := by
  refine ⟨hp, ?_, ?_, ?_, ?_, ?_, hcount, ?_, ?_⟩
  · intro l hl
    rw [hw, hasState_pack hwf, decode_pack hwf, decide_eq_true_eq]
    exact hload l hl
  · intro hl
    rw [hw, hasState_pack hwf, decide_eq_false_iff_not]
    exact hidle hl
  · intro u o w hu ho
    rw [hpend] at hu
    by_cases hut : u = t
    · subst hut
      rw [Function.update_self] at hu
      cases hu
    · rw [Function.update_of_ne hut] at hu
      obtain ⟨l, hl, hender, hwr⟩ := h.ends u o w hu ho
      rcases hends with ⟨hl', hwr'⟩ | hnone | hend
      · rw [hl', hwr']
        exact ⟨l, hl, hender, hwr⟩
      · rw [hl] at hnone
        cases hnone
      · -- `t` is the thread that ends the load
        obtain ⟨l', hl', hender', -⟩ := h.ends t op cur ht hend
        rw [hl] at hl'
        cases hl'
        rw [hender] at hender'
        cases hender'
        exact absurd rfl hut
  · rw [hpend]
    exact Pins.forall_pending_update (P := fun _ o _ => o.Promises) h.promises (by rintro o w ⟨⟩)
  · rw [hw, readable_pack' hwf, decode_pack hwf, decide_eq_true_eq]
    exact hread
  · intro u pin hu
    rw [hgiving] at hu
    rw [hpend]
    by_cases hut : u = t
    · subst hut
      rw [Function.update_self] at hu
      cases hu
    · rw [Function.update_of_ne hut] at hu ⊢
      exact h.gives u pin hu
  · rw [hw, decode_pack hwf]
    exact hcov

end Loads

/-- A change of the word that neither starts nor ends a load, makes nothing
    readable and keeps the extent of a readable chunk. -/
structure View.Quiet (v v' : View) : Prop where
  loading : v'.state = .loading ↔ v.state = .loading
  loading_fill : v.state = .loading → v'.fill = v.fill
  readable : v'.Readable → v.Readable ∧ v'.fill = v.fill
  inUse_fill : v.state = .inUse → v'.fill = v.fill

theorem View.Quiet.refl (v : View) : View.Quiet v v :=
  ⟨Iff.rfl, fun _ => rfl, fun h => ⟨h, rfl⟩, fun _ => rfl⟩

/-- The operations whose success is not an event of a load. -/
def Op.quiet : Op → Bool
  | .takeLoading | .takeLoadingMerging _ | .markCached | .markLoadFailed => false
  | _ => true

theorem View.attempt_quiet {op : Op} {v v' : View} {r : Ret} (hq : op.quiet = true)
    (hb : v.Balanced) (hf : Fits op v) (h : View.attempt op v = .swap v' r) : View.Quiet v v' := by
  cases op with
  | releaseRead =>
    cases h
    have hin : v.state = .inUse := hb.mpr hf
    refine ⟨?_, fun _ => rfl, fun _ => ⟨Or.inr hin, rfl⟩, fun _ => rfl⟩
    simp only [hin]
    split_ifs <;> simp
  | acquireRead | tryPinCovering off cb lo hi =>
    simp only [View.attempt, View.pinOnce] at h
    split_ifs at h with h1 h2
    cases h
    have hr : v.Readable := by first | exact h1 | exact h1.1
    refine ⟨?_, fun _ => rfl, fun _ => ⟨hr, rfl⟩, fun _ => rfl⟩
    rcases hr with hr | hr <;> simp [hr]
  | takeLoading | takeLoadingMerging want | markCached | markLoadFailed => cases hq
  | addSubscriber | dropSubscriber =>
    simp only [View.attempt] at h
    split_ifs at h
    cases h
    exact ⟨Iff.rfl, fun _ => rfl, fun h => ⟨h, rfl⟩, fun _ => rfl⟩
  | mergeFill want =>
    simp only [View.attempt] at h
    split_ifs at h with h1 h2 h3
    cases h
    rcases h2 with h2 | h2 | h2 <;> constructor <;> simp [h2, View.Readable]
  | markEvicting only =>
    simp only [View.attempt] at h
    split_ifs at h with h1
    cases h
    rcases h1.1 with h2 | h2 <;> constructor <;> simp [h2, View.Readable]
  | markQueued | markAllocated | markEmpty =>
    simp only [View.attempt, View.transition] at h
    split_ifs at h with h1
    cases h
    constructor <;> simp [h1.1, View.Readable]

/-- An operation that returns without an exchange and is not a pin has no event
    to report. -/
theorem attempt_done_quiet {op : Op} {cur : Word} {r : Ret} (h : attempt op cur = .done r)
    (hr : r.ok = true) :
    op.quiet = true ∧ op ≠ .markAllocated := by
  cases op with
  | takeLoading =>
    simp only [attempt, takeLoading] at h
    split_ifs at h
    cases h; cases hr
  | takeLoadingMerging want =>
    simp only [attempt, takeLoadingMerging] at h
    split_ifs at h
    cases h; cases hr
  | markCached =>
    simp only [attempt, markCached, transition] at h
    split_ifs at h
    cases h; cases hr
  | markLoadFailed =>
    simp only [attempt, markLoadFailed, transition] at h
    split_ifs at h
    cases h; cases hr
  | markAllocated =>
    simp only [attempt, markAllocated, transition] at h
    split_ifs at h
    cases h; cases hr
  | _ => exact ⟨rfl, by simp⟩

namespace Loads

variable {T : Type*} [DecidableEq T] {off cb : ℕ}

theorem outstanding_settled {s s' : Loads T} {t : T} {pin : Op} (h : s'.Outstanding pin)
    (hheld : s'.held = s.held) (hg : s'.giving = Function.update s.giving t none) :
    s.Outstanding pin := by
  rcases h with hm | ⟨u, hu⟩
  · exact Or.inl (hheld ▸ hm)
  · rw [hg] at hu
    by_cases hut : u = t
    · subst hut
      rw [Function.update_self] at hu
      cases hu
    · rw [Function.update_of_ne hut] at hu
      exact Or.inr ⟨u, hu⟩

omit [DecidableEq T] in
theorem Inv.not_outstanding {s : Loads T} (h : Inv off cb s) {v : View} (hwf : v.Wf)
    (hw : s.pins.cfg.word = pack v) (hst : v.state ≠ .inUse) {pin : Op} : ¬s.Outstanding pin := by
  intro hp
  have hin := (h.pins.finds_pin (h.outstanding_lt hp)).1
  rw [hw, hasState_pack hwf, decide_eq_true_eq] at hin
  exact hst hin

omit [DecidableEq T] in
theorem Inv.load_none {s : Loads T} (h : Inv off cb s) {v : View} (hwf : v.Wf)
    (hw : s.pins.cfg.word = pack v) (hst : v.state ≠ .loading) : s.load = none := by
  cases hl : s.load with
  | none => rfl
  | some l =>
    have := (h.loading l hl).1
    rw [hw, hasState_pack hwf, decide_eq_true_eq] at this
    exact absurd this hst

/-- A return of an operation that is not an event of a load and not a pin. -/
theorem inv_finish_quiet {s : Loads T} {p : Pins T} (h : Inv off cb s) {t : T} {op : Op}
    {cur : Word} {v v' : View} (ht : s.pins.cfg.pending t = some (op, cur)) (hp : p.Inv)
    (hpend : p.cfg.pending = Function.update s.pins.cfg.pending t none)
    (hcount : s.held.length + p.releaseCalls = p.pinned)
    (hwf : v.Wf) (hw : s.pins.cfg.word = pack v) (hwf' : v'.Wf) (hw' : p.cfg.word = pack v')
    (hq : View.Quiet v v') :
    Inv off cb { s with pins := p, giving := Function.update s.giving t none } := by
  refine Inv.finish h ht hp hpend hwf' hw' rfl hcount ?_ ?_ (Or.inl ⟨rfl, rfl⟩) ?_ ?_
  · intro l hl
    have hl := h.loading l hl
    rw [hw, hasState_pack hwf, decode_pack hwf, decide_eq_true_eq] at hl
    exact ⟨hq.loading.mpr hl.1, (hq.loading_fill hl.1).trans hl.2⟩
  · intro hl hst
    have hl := h.idle hl
    rw [hw, hasState_pack hwf, decide_eq_false_iff_not] at hl
    exact hl (hq.loading.mp hst)
  · intro hr
    obtain ⟨hr, hf⟩ := hq.readable hr
    have := h.readable (by rw [hw, readable_pack' hwf]; exact decide_eq_true hr)
    rw [hw, decode_pack hwf] at this
    rw [hf]
    exact this
  · intro pin hpin lo hi hpeq
    have hpin : s.Outstanding pin := outstanding_settled (s := s) (t := t) hpin rfl rfl
    have hc := h.covered pin hpin lo hi hpeq
    have hin := (h.pins.finds_pin (h.outstanding_lt hpin)).1
    rw [hw, hasState_pack hwf, decide_eq_true_eq] at hin
    rw [hw, decode_pack hwf] at hc
    rw [hq.inUse_fill hin]
    exact hc

omit [DecidableEq T] in
theorem Inv.fits {s : Loads T} (h : Inv off cb s) {t : T} {op : Op} {v : View} (hwf : v.Wf)
    (hw : s.pins.cfg.word = pack v) (ht : s.pins.cfg.pending t = some (op, s.pins.cfg.word)) :
    Fits op v := by
  have hprom := h.promises t op _ ht
  cases op with
  | releaseRead =>
    have := (h.pins.reads t _ ht).2
    rwa [hw, pinCount_pack hwf] at this
  | takeLoadingMerging want | mergeFill want => exact lt_of_lt_of_le hprom (by norm_num)
  | _ => trivial

section Return

-- a return of `op` by `t` that moves the word from `pack v` to `pack v'`
variable {s : Loads T} {p : Pins T} {t : T} {op : Op} {cur : Word} {v v' : View}
  (h : Inv off cb s) (ht : s.pins.cfg.pending t = some (op, cur)) (hp : p.Inv)
  (hpend : p.cfg.pending = Function.update s.pins.cfg.pending t none)
  (hcount : s.held.length + p.releaseCalls = p.pinned)
  (hwf : v.Wf) (hw : s.pins.cfg.word = pack v) (hwf' : v'.Wf) (hw' : p.cfg.word = pack v')
include h ht hp hpend hcount hwf hw hwf' hw'

/-- A load starts: it is asked for the extent that the word records. -/
theorem inv_finish_take {f : ChunkFill} (hst : v.state = .allocated) (hst' : v'.state = .loading)
    (hf : v'.fill = f) :
    Inv off cb { s with
      pins := p
      giving := Function.update s.giving t none
      load := some { id := s.nextId, fill := f }
      nextId := s.nextId + 1 } := by
  have hnone : s.load = none := h.load_none hwf hw (by rw [hst]; decide)
  refine Inv.finish h ht hp hpend hwf' hw' rfl hcount ?_ (by rintro ⟨⟩) (Or.inr (Or.inl hnone)) ?_ ?_
  · rintro l ⟨⟩
    exact ⟨hst', hf⟩
  · rintro (hr | hr) <;> rw [hst'] at hr <;> cases hr
  · intro pin hpin
    exact absurd (outstanding_settled (s := s) (t := t) hpin rfl rfl)
      (h.not_outstanding hwf hw (by rw [hst]; decide))

/-- A load completes: all the bytes of its extent are written. -/
theorem inv_finish_cached (hop : op = .markCached) (hst : v.state = .loading)
    (hst' : v'.state = .cached) (hf : v'.fill = v.fill) :
    Inv off cb { s with
      pins := p
      giving := Function.update s.giving t none
      last := s.load.map Load.id
      load := none } := by
  have hend : op.endsLoad = true := by rw [hop]; rfl
  obtain ⟨l, hl, -, hwr⟩ := h.ends t op cur ht hend
  refine Inv.finish h ht hp hpend hwf' hw' rfl hcount (by rintro l ⟨⟩) (fun _ => by rw [hst']; decide)
    (Or.inr (Or.inr hend)) (fun _ => ⟨l.id, by simp [hl], ?_⟩) ?_
  · have := (h.loading l hl).2
    rw [hw, decode_pack hwf] at this
    rw [hf, this]
    exact hwr hop
  · intro pin hpin
    exact absurd (outstanding_settled (s := s) (t := t) hpin rfl rfl)
      (h.not_outstanding hwf hw (by rw [hst]; decide))

theorem inv_finish_failed (hop : op = .markLoadFailed) (hst : v.state = .loading)
    (hst' : v'.state = .allocated) :
    Inv off cb { s with pins := p, giving := Function.update s.giving t none, load := none } := by
  refine Inv.finish h ht hp hpend hwf' hw' rfl hcount (by rintro l ⟨⟩) (fun _ => by rw [hst']; decide)
    (Or.inr (Or.inr (by rw [hop]; rfl))) ?_ ?_
  · rintro (hr | hr) <;> rw [hst'] at hr <;> cases hr
  · intro pin hpin
    exact absurd (outstanding_settled (s := s) (t := t) hpin rfl rfl)
      (h.not_outstanding hwf hw (by rw [hst]; decide))

/-- A fresh buffer is attached. -/
theorem inv_finish_allocated (hst : v.state = .queued) (hst' : v'.state = .allocated) :
    Inv off cb { s with
      pins := p
      giving := Function.update s.giving t none
      writer := fun _ => none
      last := none } := by
  have hnone : s.load = none := h.load_none hwf hw (by rw [hst]; decide)
  refine Inv.finish h ht hp hpend hwf' hw' rfl hcount ?_ (fun _ => by rw [hst']; decide)
    (Or.inr (Or.inl hnone)) ?_ ?_
  · intro l hl
    rw [show s.load = some l from hl] at hnone
    cases hnone
  · rintro (hr | hr) <;> rw [hst'] at hr <;> cases hr
  · intro pin hpin
    exact absurd (outstanding_settled (s := s) (t := t) hpin rfl rfl)
      (h.not_outstanding hwf hw (by rw [hst]; decide))

omit hcount in
/-- A pin is taken, and `try_pin_covering` has checked the extent. -/
theorem inv_finish_pin (hcount : (op :: s.held).length + p.releaseCalls = p.pinned)
    (hr : v.Readable) (hst' : v'.state = .inUse) (hf : v'.fill = v.fill)
    (hc : ∀ lo hi, op = .tryPinCovering off cb lo hi → covers v.fill off cb lo hi = true) :
    Inv off cb { s with
      pins := p
      giving := Function.update s.giving t none
      held := op :: s.held } := by
  have hld : v.state ≠ .loading := by rcases hr with hr | hr <;> rw [hr] <;> decide
  have hnone : s.load = none := h.load_none hwf hw hld
  refine Inv.finish h ht hp hpend hwf' hw' rfl hcount ?_ (fun _ => by rw [hst']; decide)
    (Or.inl ⟨rfl, rfl⟩) ?_ ?_
  · intro l hl
    rw [show s.load = some l from hl] at hnone
    cases hnone
  · intro _
    have := h.readable (by rw [hw, readable_pack' hwf]; exact decide_eq_true hr)
    rw [hw, decode_pack hwf] at this
    rw [hf]
    exact this
  · intro pin hpin lo hi hpeq
    rw [hf]
    by_cases hnew : pin = op
    · exact hc lo hi (hnew ▸ hpeq)
    · have hset : Outstanding { s with giving := Function.update s.giving t none } pin := by
        rcases hpin with hm | hu
        · exact Or.inl ((List.mem_cons.mp hm).resolve_left hnew)
        · exact Or.inr hu
      have hold : s.Outstanding pin := outstanding_settled (s := s) (t := t) hset rfl rfl
      have := h.covered pin hold lo hi hpeq
      rwa [hw, decode_pack hwf] at this

end Return

omit [DecidableEq T] in
theorem observe_quiet {s : Loads T} {op : Op} {r : Ret} (hq : op.quiet = true)
    (hp : op.isPin = false) (hne : op ≠ .markAllocated) : s.observe (some (op, r)) = s := by
  simp only [observe]
  split_ifs
  · cases op with
    | takeLoading | takeLoadingMerging want | markCached | markLoadFailed => cases hq
    | acquireRead | tryPinCovering o c lo hi => cases hp
    | markAllocated => exact absurd rfl hne
    | _ => rfl
  · rfl

/-- A return with a successful exchange. -/
theorem inv_swap {s : Loads T} {p : Pins T} {t : T} {op : Op} {v v' : View} {r : Ret}
    (h : Inv off cb s) (ht : s.pins.cfg.pending t = some (op, s.pins.cfg.word)) (hp : p.Inv)
    (hpend : p.cfg.pending = Function.update s.pins.cfg.pending t none)
    (hcalls : p.releaseCalls = s.pins.releaseCalls)
    (hpinned : p.pinned = s.pins.pinned + Pins.takes (some (op, r))) (hwf : v.Wf)
    (hw : s.pins.cfg.word = pack v) (hb : v.Balanced) (hat : View.attempt op v = .swap v' r)
    (hw' : p.cfg.word = pack v') :
    Inv off cb { (s.observe (some (op, r))).settle (.finish t) with pins := p } := by
  have hfits := h.fits hwf hw ht
  have hwf' := View.attempt_wf hwf hfits hat
  have hcount := h.count
  have hquiet : op.quiet = true → View.Quiet v v' :=
    fun hq => View.attempt_quiet hq hb hfits hat
  have hcount0 : op.isPin = false → s.held.length + p.releaseCalls = p.pinned := by
    intro hpin
    simp only [hcalls, hpinned, Pins.takes, hpin, Bool.false_and, Bool.false_eq_true, if_false]
    omega
  cases op with
  | takeLoading =>
    simp only [View.attempt] at hat
    split_ifs at hat with hst
    cases hat
    exact inv_finish_take h ht hp hpend (hcount0 rfl) hwf hw hwf' hw' hst.1 rfl rfl
  | takeLoadingMerging want =>
    simp only [View.attempt] at hat
    split_ifs at hat with hst
    cases hat
    exact inv_finish_take h ht hp hpend (hcount0 rfl) hwf hw hwf' hw' hst.1 rfl
      (stored_of_encodable (encodable_merge hwf.fill_lt (h.promises t _ _ ht)))
  | markCached =>
    simp only [View.attempt, View.transition] at hat
    split_ifs at hat with hst
    cases hat
    exact inv_finish_cached h ht hp hpend (hcount0 rfl) hwf hw hwf' hw' rfl hst.1 rfl rfl
  | markLoadFailed =>
    simp only [View.attempt, View.transition] at hat
    split_ifs at hat with hst
    cases hat
    exact inv_finish_failed h ht hp hpend (hcount0 rfl) hwf hw hwf' hw' rfl hst.1 rfl
  | markAllocated =>
    simp only [View.attempt, View.transition] at hat
    split_ifs at hat with hst
    cases hat
    exact inv_finish_allocated h ht hp hpend (hcount0 rfl) hwf hw hwf' hw' hst.1 rfl
  | acquireRead =>
    simp only [View.attempt, View.pinOnce] at hat
    split_ifs at hat with hr
    cases hat
    have hcount1 : (Op.acquireRead :: s.held).length + p.releaseCalls = p.pinned := by
      rw [List.length_cons, hcalls, hpinned]
      simp only [Pins.takes, Op.isPin, Bool.and_self, if_true]
      omega
    exact inv_finish_pin h ht hp hpend hwf hw hwf' hw' hcount1 hr rfl rfl (by rintro lo hi ⟨⟩)
  | tryPinCovering o c lo hi =>
    simp only [View.attempt, View.pinOnce] at hat
    split_ifs at hat with hr
    cases hat
    have hcount1 : (Op.tryPinCovering o c lo hi :: s.held).length + p.releaseCalls = p.pinned := by
      rw [List.length_cons, hcalls, hpinned]
      simp only [Pins.takes, Op.isPin, Bool.and_self, if_true]
      omega
    exact inv_finish_pin h ht hp hpend hwf hw hwf' hw' hcount1 hr.1 rfl rfl
      (by rintro lo' hi' ⟨⟩; exact hr.2)
  | _ =>
    rw [observe_quiet rfl rfl (by simp)]
    exact inv_finish_quiet h ht hp hpend (hcount0 rfl) hwf hw hwf' hw' (hquiet rfl)

/-- A return without an exchange. -/
theorem inv_done {s : Loads T} {p : Pins T} {t : T} {op : Op} {cur : Word} {r : Ret}
    (h : Inv off cb s) (hok : s.pins.BelowLimit (.finish t))
    (ht : s.pins.cfg.pending t = some (op, cur)) (hp : p.Inv)
    (hpend : p.cfg.pending = Function.update s.pins.cfg.pending t none)
    (hcalls : p.releaseCalls = s.pins.releaseCalls)
    (hpinned : p.pinned = s.pins.pinned + Pins.takes (some (op, r)))
    (hat : attempt op cur = .done r) (hw' : p.cfg.word = s.pins.cfg.word) :
    Inv off cb { (s.observe (some (op, r))).settle (.finish t) with pins := p } := by
  have hpin : (op.isPin && r.ok) = false := by
    by_contra hb
    simp only [Bool.not_eq_false, Bool.and_eq_true] at hb
    obtain ⟨hacc, hfull⟩ := attempt_done_pin hat hb.1 hb.2
    have := hok (op, cur) ht hacc
    simp only at this
    omega
  have hobs : s.observe (some (op, r)) = s := by
    cases hr : r.ok with
    | false => simp only [observe, hr, Bool.false_eq_true, if_false]
    | true =>
      obtain ⟨hq, hne⟩ := attempt_done_quiet hat hr
      rw [hr, Bool.and_true] at hpin
      exact observe_quiet hq hpin hne
  obtain ⟨v, hwf, hw, -⟩ := h.pins.word
  have hcount : s.held.length + p.releaseCalls = p.pinned := by
    have := h.count
    simp only [hcalls, hpinned, Pins.takes, hpin, Bool.false_eq_true, if_false]
    omega
  rw [hobs]
  exact inv_finish_quiet h ht hp hpend hcount hwf hw hwf (hw'.trans hw) (View.Quiet.refl v)

theorem inv_act {s s' : Loads T} {a : Act Op T} (h : Inv off cb s) (hok : s.pins.BelowLimit a)
    (hs : s.step off cb (.act a) = some s') : Inv off cb s' := by
  simp only [step] at hs
  split_ifs at hs with hallow
  obtain ⟨p, hp, hs⟩ := Option.bind_eq_some_iff.mp hs
  obtain ⟨⟨c', ret⟩, hc, rfl⟩ := Option.map_eq_some_iff.mp hs
  have hpI : p.Inv := Pins.inv_step h.pins (guarded_eq_some.mpr ⟨hok, hp⟩)
  have hpeq := Pins.step_eq hp hc
  rcases stepRet_cases hc with ⟨t, op, rfl, ht, rfl, rfl⟩ |
    ⟨t, op, cur, next, r, rfl, ht, -, rfl, rfl⟩ | ⟨t, op, cur, r, rfl, ht, hat, rfl, rfl⟩ |
    ⟨t, op, next, r, rfl, ht, hat, rfl, rfl⟩
  · obtain ⟨hne, hprom, hend⟩ := hallow
    have hself : ∀ pin, s.giving t = some pin → op = .releaseRead := by
      intro pin hpin
      obtain ⟨cur, hcur⟩ := h.gives t pin hpin
      rw [ht] at hcur
      cases hcur
    have hcount : s.held.length + p.releaseCalls = p.pinned := by
      rw [hpeq]
      simp only [Pins.calls, if_neg hne, Pins.takes]
      exact h.count
    have hw : p.cfg.word = s.pins.cfg.word := by rw [hpeq]
    have hpend : p.cfg.pending =
        Function.update s.pins.cfg.pending t (some (op, s.pins.cfg.word)) := by rw [hpeq]
    simp only [begin, observe, settle]
    split_ifs with he
    · exact Inv.read h hpI hw hpend hcount hprom (fun _ h => h) (fun _ _ h => Or.inr h) hself
        (Or.inr ⟨he, hend he, rfl⟩)
    · exact Inv.read h hpI hw hpend hcount hprom (fun _ h => h) (fun _ _ h => Or.inr h) hself
        (Or.inl ⟨rfl, fun h => absurd h he⟩)
  · have hself : ∀ pin, s.giving t = some pin → op = .releaseRead := by
      intro pin hpin
      obtain ⟨w, hw⟩ := h.gives t pin hpin
      rw [ht] at hw
      cases hw
      rfl
    have hcount : s.held.length + p.releaseCalls = p.pinned := by
      rw [hpeq]
      exact h.count
    have hw : p.cfg.word = s.pins.cfg.word := by rw [hpeq]
    have hpend : p.cfg.pending =
        Function.update s.pins.cfg.pending t (some (op, s.pins.cfg.word)) := by rw [hpeq]
    exact Inv.read h hpI hw hpend hcount (h.promises t op cur ht) (fun _ h => h)
      (fun _ _ h => Or.inr h) hself (Or.inl ⟨rfl, h.ends t op cur ht⟩)
  · subst hpeq
    exact inv_done h hok ht hpI rfl rfl rfl hat rfl
  · obtain ⟨v, hwf, hw, hb, -⟩ := h.pins.word
    rw [hw, attempt_pack hwf (h.fits hwf hw ht)] at hat
    cases hv : View.attempt op v with
    | done r' => rw [hv] at hat; cases hat
    | swap v' r' =>
      rw [hv] at hat
      cases hat
      subst hpeq
      exact inv_swap h ht hpI rfl rfl rfl hwf hw hb hv rfl

theorem inv_step {s s' : Loads T} {m : Move T} (h : Inv off cb s)
    (hs : guarded (step off cb) BelowLimit s m = some s') : Inv off cb s' := by
  obtain ⟨hok, hs⟩ := guarded_eq_some.mp hs
  cases m with
  | act a => exact inv_act h hok hs
  | release t pin => exact inv_release h hs
  | write b => exact inv_write h hs

/-! ## Result -/

/-- **Bytes advertised are bytes written.** In every run in which the pin count
    stays below its limit, as long as a pin of `try_pin_covering` for `[lo, hi)`
    is outstanding, every byte of `[lo, hi)` was written by the load that last
    completed into the current buffer. -/
theorem pinned_bytes_written {ms : List (Move T)} {s : Loads T}
    (h : run (guarded (step off cb) BelowLimit) start ms = some s) {lo hi : ℕ} (hlo : off ≤ lo)
    (hhi : hi ≤ off + cb) (hpin : s.Outstanding (.tryPinCovering off cb lo hi)) :
    ∃ id, s.last = some id ∧ ∀ b, lo ≤ b → b < hi → s.writer b = some id := by
  have hI : Inv off cb s := run_invariant (fun _ _ _ hi hs => inv_step hi hs) inv_start h
  obtain ⟨id, hlast, hwr⟩ := hI.readable (hI.outstanding_readable hpin)
  obtain ⟨h1, h2⟩ := covers_mem_fillSpan (hI.covered _ hpin lo hi rfl) hlo hhi
  refine ⟨id, hlast, fun b hb1 hb2 => hwr b ?_⟩
  exact Finset.mem_Ico.mpr ⟨by omega, by omega⟩

/-! ### A run that loads and pins a page -/

/-- A load that writes the bytes of a list. -/
theorem run_writes {s : Loads T} {l : Load T} (hl : s.load = some l) (he : l.ender = none)
    (bs : List ℕ) (hbs : ∀ b ∈ bs, b ∈ spanBytes off cb l.fill) :
    run (guarded (step off cb) BelowLimit) s (bs.map .write) =
      some { s with writer := fun b => if b ∈ bs then some l.id else s.writer b } := by
  induction bs generalizing s with
  | nil => simp
  | cons b bs ih =>
    have hstep : guarded (step off cb) BelowLimit s (.write b) =
        some { s with writer := Function.update s.writer b (some l.id) } := by
      refine guarded_eq_some.mpr ⟨trivial, ?_⟩
      simp only [step, hl]
      rw [if_pos ⟨he, hbs b List.mem_cons_self⟩]
    rw [List.map_cons, run_cons, hstep, Option.bind_some,
      ih (s := { s with writer := Function.update s.writer b (some l.id) }) hl
        (fun c hc => hbs c (List.mem_cons_of_mem _ hc))]
    congr 2
    funext c
    by_cases h1 : c ∈ bs <;> by_cases h2 : c = b <;> simp [h1, h2]

omit [DecidableEq T] in
theorem observe_held (s : Loads T) (op : Op) (r : Ret) :
    (s.observe (some (op, r))).held = if r.ok && op.isPin then op :: s.held else s.held := by
  simp only [observe]
  cases r.ok <;> cases op <;> rfl

/-- An operation that runs alone and exchanges the word. -/
theorem run_swap {s : Loads T} {t : T} {op : Op} {w' : Word} {r : Ret}
    (ht : s.pins.cfg.pending t = none) (hallow : s.Allowed off cb (.call t op)) (hty : op.Typed)
    (hlim : op.accepts s.pins.cfg.word = true → pinCount s.pins.cfg.word < maxPins)
    (hat : attempt op s.pins.cfg.word = .swap w' r) :
    ∃ s', run (guarded (step off cb) BelowLimit) s [.act (.call t op), .act (.finish t)] =
      some s' ∧ s'.pins.cfg.word = w' ∧ s'.pins.cfg.pending t = none ∧
      s'.held = (if r.ok && op.isPin then op :: s.held else s.held) := by
  have hmay : s.pins.MayCall (.call t op) := ⟨hty, fun h => absurd h hallow.1⟩
  obtain ⟨s1, h1, hs1⟩ : ∃ s1, guarded (step off cb) BelowLimit s (.act (.call t op)) = some s1 ∧
      s1 = { s.begin (.call t op) with
        pins := { s.pins with
          cfg := { s.pins.cfg with
            pending := Function.update s.pins.cfg.pending t (some (op, s.pins.cfg.word)) }
          releaseCalls := s.pins.releaseCalls + Pins.calls (.call t op) } } := by
    refine ⟨_, guarded_eq_some.mpr ⟨trivial, ?_⟩, rfl⟩
    simp [step, hallow, Pins.step, hmay, stepRet, ht, observe, settle, Pins.takes, Pins.frees]
  have hp1 : s1.pins.cfg = ⟨s.pins.cfg.word,
      Function.update s.pins.cfg.pending t (some (op, s.pins.cfg.word))⟩ := by rw [hs1]
  have hpend : s1.pins.cfg.pending t = some (op, s.pins.cfg.word) := by simp [hp1]
  have hword : s1.pins.cfg.word = s.pins.cfg.word := by rw [hp1]
  have hbelow : s1.BelowLimit (.act (.finish t)) := by
    intro x hx hacc
    rw [hpend] at hx
    cases hx
    exact hlim hacc
  have hfin : s1.Allowed off cb (.finish t) := trivial
  have hfin' : s1.pins.MayCall (.finish t) := trivial
  have h2 : ∃ s', guarded (step off cb) BelowLimit s1 (.act (.finish t)) = some s' ∧
      s'.pins.cfg.word = w' ∧ s'.pins.cfg.pending t = none ∧
      s'.held = (if r.ok && op.isPin then op :: s.held else s.held) := by
    refine ⟨_, guarded_eq_some.mpr ⟨hbelow, by
      simp only [step, if_pos hfin, Pins.step, if_pos hfin', stepRet, hpend, hat, hword, if_true,
        Option.map_some, Option.bind_some]; rfl⟩, rfl, by simp, ?_⟩
    simp only [settle, observe_held, begin, hs1]
    split_ifs <;> rfl
  obtain ⟨s2, h2, hrest⟩ := h2
  refine ⟨s2, ?_, hrest⟩
  rw [run_cons, h1, Option.bind_some, run_cons, h2]
  rfl

/-- Steps up to a load of a whole page. -/
def takeActs : List (Move Unit) :=
  [.act (.call () .markQueued), .act (.finish ()), .act (.call () .markAllocated),
    .act (.finish ()), .act (.call () (.mergeFill (neededFill 0 4096 0 4096))), .act (.finish ()),
    .act (.call () .takeLoading), .act (.finish ())]

/-- `loading` with the extent `whole`. -/
def loadingWord : Word := 0x80000003#64

/-- `cached` with the extent `whole`. -/
def cachedWord : Word := 0x80000004#64

/-- The page is written, byte by byte. -/
theorem run_page (bs : List ℕ) (hbs : ∀ b, b ∈ bs ↔ b ∈ spanBytes 0 4096 whole) :
    ∃ s : Loads Unit,
      run (guarded (step 0 4096) BelowLimit) start (takeActs ++ bs.map .write) = some s ∧
      s.pins = ⟨⟨loadingWord, fun _ => none⟩, 0, 0, 0⟩ ∧ s.load = some ⟨0, whole, none⟩ ∧
      ∀ b ∈ spanBytes 0 4096 whole, s.writer b = some 0 := by
  have h0 : run (guarded (step 0 4096) BelowLimit) start takeActs =
      some { pins := ⟨⟨loadingWord, fun _ => none⟩, 0, 0, 0⟩, load := some ⟨0, whole, none⟩,
             nextId := 1 } := rfl
  exact ⟨_, run_trans h0 (run_writes rfl rfl bs fun b => (hbs b).mp), rfl, rfl,
    fun b hb => if_pos ((hbs b).mpr hb)⟩

/-- A page is promised and loaded, and a reader pins part of it. -/
theorem pinned_bytes_written_page : ∃ (ms : List (Move Unit)) (s : Loads Unit),
    run (guarded (step 0 4096) BelowLimit) start ms = some s ∧
    s.Outstanding (.tryPinCovering 0 4096 100 200) ∧
    ∃ id, s.last = some id ∧ ∀ b, 100 ≤ b → b < 200 → s.writer b = some id := by
  have hspan : ∀ b, b ∈ List.range 4096 ↔ b ∈ spanBytes 0 4096 whole := by
    intro b
    simp [spanBytes, fillSpan, whole]
  obtain ⟨s1, h1, hp1, hl1, hw1⟩ := run_page (List.range 4096) hspan
  obtain ⟨s2, h2, hw2, hp2, -⟩ := run_swap (s := s1) (t := ()) (by rw [hp1])
    (show s1.Allowed 0 4096 (.call () .markCached) from
      ⟨by simp, trivial, fun _ => ⟨_, hl1, rfl, fun _ => hw1⟩⟩)
    trivial (by rintro ⟨⟩) (show _ = Attempt.swap cachedWord { ok := true } by rw [hp1]; decide)
  obtain ⟨s, h3, -, -, hheld⟩ := run_swap (t := ()) hp2
    (show s2.Allowed 0 4096 (.call () (.tryPinCovering 0 4096 100 200)) from
      ⟨by simp, trivial, by rintro ⟨⟩⟩)
    trivial (fun _ => by rw [hw2]; decide)
    (show _ = Attempt.swap 0x80000015#64 ({ ok := true } : Ret) by rw [hw2]; decide)
  have hrun := run_trans (run_trans h1 h2) h3
  have hpin : s.Outstanding (.tryPinCovering 0 4096 100 200) :=
    Or.inl (by rw [hheld]; exact List.mem_cons_self)
  exact ⟨_, s, hrun, hpin, pinned_bytes_written hrun (by norm_num) (by norm_num) hpin⟩

end Loads

end Sirius.IoCache.ChunkState
