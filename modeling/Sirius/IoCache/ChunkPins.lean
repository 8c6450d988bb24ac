import Sirius.IoCache.ChunkState

/-!
# Reader pins under every interleaving

Any number of threads run the operations of one `chunk_state`, step by step: a
load or a `compare_exchange_weak` is one step (`CasLoop`). A thread calls
`release_read` only for a pin that was reported to be taken and has not been
given back yet.

`pin_once` reports no retry when the 12-bit count is full, and its callers then
return `true` without having counted a pin.

* `pins_counted`: the runs in which no pin meets a full count.
* `saturated_pin_lost`: the 4096th pin is reported but not counted, so that a
  chunk with a reader is evicted and a release finds no pin.
-/

namespace Sirius.IoCache.ChunkState

open Sirius.Common Sirius.Common.CasLoop ChunkFill

/-! ## The system -/

/-- The operations that pin: `acquire_read` and `try_pin_covering`. -/
def Op.isPin : Op → Bool
  | .acquireRead | .tryPinCovering .. => true
  | _ => false

/-- The page count of an extent passed in is a `uint16_t`. -/
def Op.Typed : Op → Prop
  | .takeLoadingMerging want | .mergeFill want => want.pages < 2 ^ 16
  | _ => True

instance : (op : Op) → Decidable op.Typed
  | .takeLoadingMerging want | .mergeFill want => inferInstanceAs (Decidable (want.pages < 2 ^ 16))
  | .markQueued | .markAllocated | .markCached | .markLoadFailed | .markEmpty | .takeLoading
  | .acquireRead | .tryPinCovering .. | .releaseRead | .markEvicting _ | .addSubscriber
  | .dropSubscriber => isTrue trivial

/-- The checks a pinning operation makes on the word before `pin_once`. -/
def Op.accepts (op : Op) (cur : Word) : Bool :=
  match op with
  | .acquireRead => readable cur
  | .tryPinCovering off cb lo hi => readable cur && covers (decode cur) off cb lo hi
  | _ => false

/-- The word with the running operations, and how many pins were reported
    taken, how many releases were called and how many of them took effect. -/
structure Pins (T : Type*) where
  cfg : Config Word Op T
  pinned : ℕ := 0
  releaseCalls : ℕ := 0
  released : ℕ := 0

namespace Pins

variable {T : Type*} [DecidableEq T]

/-- The all-zero word, with no operation running. -/
def start : Pins T := { cfg := init 0 }

/-- `release_read` is called once for each pin that was reported. -/
def MayCall (s : Pins T) : Act Op T → Prop
  | .call _ op => op.Typed ∧ (op = .releaseRead → s.releaseCalls < s.pinned)
  | _ => True

instance (s : Pins T) : (a : Act Op T) → Decidable (s.MayCall a)
  | .call _ op => inferInstanceAs (Decidable (op.Typed ∧ (op = .releaseRead → _)))
  | .retry _ | .finish _ => isTrue trivial

def calls : Act Op T → ℕ
  | .call _ op => if op = .releaseRead then 1 else 0
  | _ => 0

def takes : Option (Op × Ret) → ℕ
  | some (op, r) => if op.isPin && r.ok then 1 else 0
  | none => 0

def frees : Option (Op × Ret) → ℕ
  | some (op, _) => if op = .releaseRead then 1 else 0
  | none => 0

/-- One step of one thread. -/
def step (s : Pins T) (a : Act Op T) : Option (Pins T) :=
  if s.MayCall a then
    (stepRet attempt s.cfg a).map fun x =>
      { cfg := x.1
        pinned := s.pinned + takes x.2
        releaseCalls := s.releaseCalls + calls a
        released := s.released + frees x.2 }
  else none

/-- No pin meets a full count: a pinning operation whose checks pass on the
    word it read finds fewer than `MAX_PINS` pins there. -/
def BelowLimit (s : Pins T) : Act Op T → Prop
  | .finish t => ∀ x ∈ s.cfg.pending t, x.1.accepts x.2 = true → pinCount x.2 < maxPins
  | _ => True

instance (s : Pins T) : (a : Act Op T) → Decidable (s.BelowLimit a)
  | .finish t => inferInstanceAs (Decidable (∀ x ∈ s.cfg.pending t, _ → _))
  | .call _ _ | .retry _ => isTrue trivial

end Pins

/-! ## What an operation does to the pins -/

/-- `in_use` is the state of a pinned chunk, and of no other. -/
def View.Balanced (v : View) : Prop := v.state = .inUse ↔ 0 < v.pins

/-- A successful exchange of a pinning operation adds a pin, one of
    `release_read` removes one, and the others leave the pins alone; they change
    the state only where there is no pin. -/
theorem View.attempt_swap_pins {op : Op} {v v' : View} {r : Ret}
    (h : View.attempt op v = .swap v' r) :
    (op.isPin = true ∧ r.ok = true ∧ v'.state = .inUse ∧ v'.pins = v.pins + 1) ∨
    (op = .releaseRead ∧ v'.pins = v.pins - 1 ∧
      v'.state = if v.pins - 1 = 0 then .cached else .inUse) ∨
    (op.isPin = false ∧ op ≠ .releaseRead ∧ v'.pins = v.pins ∧
      (v'.state = v.state ∨ v.pins = 0 ∧ v'.state ≠ .inUse)) := by
  cases op with
  | releaseRead =>
    cases h
    exact Or.inr (Or.inl ⟨rfl, rfl, rfl⟩)
  | acquireRead | tryPinCovering off cb lo hi =>
    simp only [View.attempt, View.pinOnce] at h
    split_ifs at h
    cases h
    exact Or.inl ⟨rfl, rfl, rfl, rfl⟩
  | _ =>
    simp only [View.attempt, View.transition] at h
    split_ifs at h
    all_goals
      cases h
      refine Or.inr (Or.inr ⟨rfl, by simp, rfl, ?_⟩)
      simp_all

/-- A pinning operation that returns without an exchange and reports success
    has met a full count. -/
theorem attempt_done_pin {op : Op} {cur : Word} {r : Ret} (h : attempt op cur = .done r)
    (hp : op.isPin = true) (hr : r.ok = true) :
    op.accepts cur = true ∧ maxPins ≤ pinCount cur := by
  cases op with
  | acquireRead =>
    simp only [attempt, acquireRead, pinOnce] at h
    split_ifs at h with h1 h2
    · cases h; cases hr
    · exact ⟨by simpa [Op.accepts] using h1, h2⟩
  | tryPinCovering off cb lo hi =>
    simp only [attempt, tryPinCovering, pinOnce] at h
    split_ifs at h with h1 h2 h3
    · cases h; cases hr
    · cases h; cases hr
    · exact ⟨by simp_all [Op.accepts], h3⟩
  | _ => cases hp

theorem markEvicting_done {only : Bool} {cur : Word} {r : Ret}
    (h : attempt (.markEvicting only) cur = .done r) : r.ok = false := by
  simp only [attempt, markEvicting] at h
  split_ifs at h <;> cases h <;> rfl

theorem attempt_releaseRead_ne_done {cur : Word} {r : Ret} :
    attempt .releaseRead cur ≠ .done r := by
  intro h
  cases h

namespace Pins

variable {T : Type*}

/-! ## The invariant -/

/-- The threads inside `release_read`. -/
def releasing (pending : T → Option (Op × Word)) : Set T :=
  {t | ∃ cur, pending t = some (.releaseRead, cur)}

/-- What every reachable state satisfies. -/
structure Inv (s : Pins T) : Prop where
  typed : ∀ t op cur, s.cfg.pending t = some (op, cur) → op.Typed
  word : ∃ v : View, v.Wf ∧ s.cfg.word = pack v ∧ v.Balanced ∧ v.pins + s.released = s.pinned
  called : s.releaseCalls ≤ s.pinned
  finite : (releasing s.cfg.pending).Finite
  running : s.released + (releasing s.cfg.pending).ncard = s.releaseCalls
  reads : ∀ t cur, s.cfg.pending t = some (.releaseRead, cur) →
    hasState cur .inUse = true ∧ 0 < pinCount cur

theorem releasing_init (w : Word) : releasing (init w : Config Word Op T).pending = ∅ := by
  simp [releasing, init]

theorem inv_start : Inv (start : Pins T) where
  typed := by intro t op cur h; cases h
  word := ⟨{}, wf_default, pack_default.symm, by simp [View.Balanced], rfl⟩
  called := le_rfl
  finite := by simp only [start, releasing_init, Set.finite_empty]
  running := by simp only [start, releasing_init, Set.ncard_empty]
  reads := by intro t cur h; cases h

variable {s s' : Pins T}

/-- While fewer releases took effect than pins were taken, the word shows a pin. -/
theorem Inv.finds_pin (h : Inv s) (hr : s.released < s.pinned) :
    hasState s.cfg.word .inUse = true ∧ 0 < pinCount s.cfg.word := by
  obtain ⟨v, hwf, hw, hbal, hsum⟩ := h.word
  have hpos : 0 < v.pins := by omega
  rw [hw, hasState_pack hwf, pinCount_pack hwf]
  exact ⟨by simpa using hbal.mpr hpos, hpos⟩

variable {t : T}

theorem Inv.running_lt (h : Inv s) {cur : Word}
    (ht : s.cfg.pending t = some (.releaseRead, cur)) : s.released < s.releaseCalls := by
  have : 0 < (releasing s.cfg.pending).ncard := (Set.ncard_pos h.finite).mpr ⟨t, cur, ht⟩
  have := h.running
  omega

variable [DecidableEq T]

theorem releasing_update_self (p : T → Option (Op × Word)) (t : T) (w : Word) :
    releasing (Function.update p t (some (.releaseRead, w))) = insert t (releasing p) := by
  ext u
  by_cases hu : u = t
  · subst hu; simp [releasing]
  · simp [releasing, hu]

variable {x : Option (Op × Word)}

theorem releasing_update_of_ne (p : T → Option (Op × Word)) (t : T)
    (hx : ∀ cur, x ≠ some (.releaseRead, cur)) :
    releasing (Function.update p t x) = releasing p \ {t} := by
  ext u
  by_cases hu : u = t
  · subst hu; simp [releasing, hx]
  · simp [releasing, hu]

/-- A property of the running operations survives a change of one of them. -/
theorem forall_pending_update {P : T → Op → Word → Prop} {p : T → Option (Op × Word)}
    (hp : ∀ u op cur, p u = some (op, cur) → P u op cur)
    (hx : ∀ op cur, x = some (op, cur) → P t op cur) :
    ∀ u op cur, Function.update p t x u = some (op, cur) → P u op cur := by
  intro u op cur h
  by_cases hu : u = t
  · subst hu
    rw [Function.update_self] at h
    exact hx op cur h
  · rw [Function.update_of_ne hu] at h
    exact hp u op cur h

/-! ### One step -/

theorem step_eq {a : Act Op T} {c' : Config Word Op T} {ret : Option (Op × Ret)}
    (h : s.step a = some s') (hc : stepRet attempt s.cfg a = some (c', ret)) :
    s' = { cfg := c'
           pinned := s.pinned + takes ret
           releaseCalls := s.releaseCalls + calls a
           released := s.released + frees ret } := by
  unfold step at h
  split_ifs at h
  rw [hc, Option.map_some, Option.some.injEq] at h
  exact h.symm

variable {op : Op}

theorem step_call (h : s.step (.call t op) = some s') :
    s.cfg.pending t = none ∧ s' = { s with
      cfg := { s.cfg with pending := Function.update s.cfg.pending t (some (op, s.cfg.word)) }
      releaseCalls := s.releaseCalls + calls (.call t op) } := by
  unfold step at h
  split_ifs at h
  cases ht : s.cfg.pending t with
  | some x => simp [stepRet, ht] at h
  | none =>
    simp only [stepRet, ht, Option.map_some, Option.some.injEq] at h
    exact ⟨rfl, h.symm⟩

/-- The operation `op` reads the word; a `release_read` among the running ones
    finds a pin there. -/
theorem Inv.reads_update (h : Inv s) (hr : op = .releaseRead → s.released < s.pinned) :
    ∀ u cur, Function.update s.cfg.pending t (some (op, s.cfg.word)) u =
        some (.releaseRead, cur) → hasState cur .inUse = true ∧ 0 < pinCount cur := by
  intro u cur
  refine fun hu => forall_pending_update
    (P := fun _ o w => o = .releaseRead → hasState w .inUse = true ∧ 0 < pinCount w)
    (fun v o w hp ho => h.reads v w (ho ▸ hp)) (fun o w hx ho => ?_) u .releaseRead cur hu rfl
  cases hx
  exact h.finds_pin (hr ho)

theorem Inv.typed_update (h : Inv s) (hx : ∀ op cur, x = some (op, cur) → op.Typed) :
    ∀ u op cur, Function.update s.cfg.pending t x u = some (op, cur) → op.Typed :=
  forall_pending_update h.typed hx

theorem inv_call (h : Inv s) (ht : s.cfg.pending t = none) (hmay : s.MayCall (.call t op)) :
    Inv { s with
      cfg := { s.cfg with pending := Function.update s.cfg.pending t (some (op, s.cfg.word)) }
      releaseCalls := s.releaseCalls + calls (.call t op) } := by
  obtain ⟨htyped, hrel⟩ := hmay
  have hcalls := h.running
  have hnot : t ∉ releasing s.cfg.pending := by
    rintro ⟨cur, hcur⟩
    rw [ht] at hcur
    cases hcur
  refine ⟨h.typed_update (by rintro o w ⟨⟩; exact htyped), h.word, ?_, ?_, ?_,
    h.reads_update fun ho => by have := hrel ho; omega⟩
  all_goals by_cases ho : op = .releaseRead
  · subst ho; exact hrel rfl
  · simp only [calls, if_neg ho]; exact h.called
  · subst ho; simp only [releasing_update_self]; exact h.finite.insert t
  · rw [releasing_update_of_ne _ _ (by rintro w ⟨⟩; exact ho rfl)]; exact h.finite.sdiff
  · subst ho
    simp only [releasing_update_self, Set.ncard_insert_of_notMem hnot h.finite, calls,
      if_pos trivial]
    omega
  · simp only [calls, if_neg ho]
    rw [releasing_update_of_ne _ _ (by rintro w ⟨⟩; exact ho rfl),
      Set.sdiff_singleton_eq_self hnot]
    exact hcalls

theorem inv_retry (h : Inv s) {cur : Word} (ht : s.cfg.pending t = some (op, cur)) :
    Inv { s with
      cfg := { s.cfg with
        pending := Function.update s.cfg.pending t (some (op, s.cfg.word)) } } := by
  have hsame : releasing (Function.update s.cfg.pending t (some (op, s.cfg.word))) =
      releasing s.cfg.pending := by
    by_cases ho : op = .releaseRead
    · subst ho
      have hmem : t ∈ releasing s.cfg.pending := ⟨cur, ht⟩
      rw [releasing_update_self, Set.insert_eq_of_mem hmem]
    · rw [releasing_update_of_ne _ _ (by rintro w ⟨⟩; exact ho rfl), Set.sdiff_singleton_eq_self]
      rintro ⟨w, hw⟩
      rw [ht] at hw
      cases hw
      exact ho rfl
  refine ⟨h.typed_update (by rintro o w ⟨⟩; exact h.typed t op cur ht), h.word, h.called, ?_, ?_,
    h.reads_update fun ho => ?_⟩
  · simp only [hsame]; exact h.finite
  · simp only [hsame]; exact h.running
  · subst ho
    have := h.running_lt ht
    have := h.called
    omega

/-- A return, whatever it did to the word, once the word is known to agree with
    the new counts. -/
theorem inv_return (h : Inv s) {cur w : Word} {taken : ℕ}
    (ht : s.cfg.pending t = some (op, cur))
    (hw : ∃ v : View, v.Wf ∧ w = pack v ∧ v.Balanced ∧
      v.pins + (s.released + if op = .releaseRead then 1 else 0) = s.pinned + taken) :
    Inv { s with
      cfg := { word := w, pending := Function.update s.cfg.pending t none }
      pinned := s.pinned + taken
      released := s.released + if op = .releaseRead then 1 else 0 } := by
  have hrel : releasing (Function.update s.cfg.pending t none) = releasing s.cfg.pending \ {t} :=
    releasing_update_of_ne _ _ (by rintro w ⟨⟩)
  refine ⟨h.typed_update (by rintro o w ⟨⟩), hw, ?_, ?_, ?_, ?_⟩
  · have := h.called
    simp only
    omega
  · simp only [hrel]; exact h.finite.sdiff
  · have hrun := h.running
    simp only [hrel]
    by_cases ho : op = .releaseRead
    · subst ho
      have hmem : t ∈ releasing s.cfg.pending := ⟨cur, ht⟩
      have hcard := Set.ncard_sdiff_singleton_add_one hmem h.finite
      rw [if_pos rfl]
      omega
    · rw [if_neg ho, Set.sdiff_singleton_eq_self]
      · exact hrun
      · rintro ⟨w', hw'⟩
        rw [ht] at hw'
        cases hw'
        exact ho rfl
  · intro u w' hu
    exact forall_pending_update
      (P := fun _ o w => o = .releaseRead → hasState w .inUse = true ∧ 0 < pinCount w)
      (fun v o w hp ho => h.reads v w (ho ▸ hp)) (by rintro o w ⟨⟩) u .releaseRead w' hu rfl

theorem inv_step {a : Act Op T} (hI : Inv s)
    (h : guarded step BelowLimit s a = some s') : Inv s' := by
  obtain ⟨hok, h⟩ := guarded_eq_some.mp h
  unfold step at h
  split_ifs at h with hmay
  obtain ⟨⟨c', ret⟩, hc, rfl⟩ := Option.map_eq_some_iff.mp h
  rcases stepRet_cases hc with ⟨t, op, rfl, ht, rfl, rfl⟩ |
    ⟨t, op, cur, next, r, rfl, ht, -, rfl, rfl⟩ | ⟨t, op, cur, r, rfl, ht, hat, rfl, rfl⟩ |
    ⟨t, op, next, r, rfl, ht, hat, rfl, rfl⟩
  · exact inv_call hI ht hmay
  · exact inv_retry hI ht
  · -- a return without an exchange: neither a release nor, below the limit, a pin
    have hrel : op ≠ .releaseRead := by rintro rfl; exact attempt_releaseRead_ne_done hat
    have hpin : (op.isPin && r.ok) = false := by
      by_contra hb
      simp only [Bool.not_eq_false, Bool.and_eq_true] at hb
      obtain ⟨hacc, hfull⟩ := attempt_done_pin hat hb.1 hb.2
      have := hok (op, cur) ht hacc
      simp only at this
      omega
    have hw := hI.word
    exact inv_return hI ht (by simpa [takes, hpin, hrel] using hw)
  · obtain ⟨v, hwf, hw, hbal, hsum⟩ := hI.word
    have hfits : Fits op v := by
      have htyped := hI.typed t op _ ht
      cases op with
      | releaseRead =>
        have := (hI.reads t _ ht).2
        rwa [hw, pinCount_pack hwf] at this
      | takeLoadingMerging want | mergeFill want => exact htyped
      | _ => trivial
    rw [hw, attempt_pack hwf hfits] at hat
    cases hv : View.attempt op v with
    | done r' => rw [hv] at hat; cases hat
    | swap v' r' =>
      rw [hv] at hat
      cases hat
      refine inv_return hI ht ⟨v', View.attempt_wf hwf hfits hv, rfl, ?_⟩
      unfold View.Balanced at *
      rcases View.attempt_swap_pins hv with ⟨hp, hr, hst, hpins⟩ | ⟨rfl, hpins, hst⟩ |
        ⟨hp, hne, hpins, hst⟩
      · have hne : op ≠ .releaseRead := by rintro rfl; cases hp
        simp only [takes, hp, hr, hne, if_false, Bool.and_self, if_true, hst, hpins, true_iff]
        omega
      · have hpos : 0 < v.pins := hfits
        simp only [takes, Op.isPin, Bool.false_and, if_true, hpins]
        refine ⟨?_, by simp only [Bool.false_eq_true, if_false]; omega⟩
        rw [hst]
        split_ifs with h0
        · simp [h0]
        · simp only [true_iff]; omega
      · simp only [takes, hp, hne, if_false, Bool.false_and, hpins, Bool.false_eq_true]
        refine ⟨?_, by omega⟩
        rcases hst with hst | ⟨h0, hst⟩
        · rw [hst]; exact hbal
        · simp [hst, h0]

/-! ## Results -/

/-- **Pins are counted.** In every run in which no pin meets a full count, the
    stored count is the number of pins taken and not yet released,
    `mark_evicting` succeeds only when there is none, and every pass of
    `release_read` finds `in_use` and at least one pin. -/
theorem pins_counted {as : List (Act Op T)} {s : Pins T}
    (h : run (guarded step BelowLimit) start as = some s) :
    pinCount s.cfg.word + s.released = s.pinned ∧
    (∀ a c' only r, stepRet attempt s.cfg a = some (c', some (.markEvicting only, r)) →
      r.ok = true → s.pinned = s.released) ∧
    (∀ t cur, s.cfg.pending t = some (.releaseRead, cur) →
      hasState cur .inUse = true ∧ 0 < pinCount cur) := by
  have hI : Inv s := run_invariant (fun _ _ _ hi hs => inv_step hi hs) inv_start h
  obtain ⟨v, hwf, hw, -, hsum⟩ := hI.word
  refine ⟨by rw [hw, pinCount_pack hwf]; exact hsum, ?_, hI.reads⟩
  intro a c' only r hret hok
  rcases stepRet_cases hret with ⟨t, op, -, -, hnone, -⟩ | ⟨t, op, cur, next, r', -, -, -, hnone, -⟩ |
    ⟨t, op, cur, r', -, -, hat, heq, -⟩ | ⟨t, op, next, r', -, -, hat, heq, -⟩
  · cases hnone
  · cases hnone
  · cases heq
    exact absurd hok (by rw [markEvicting_done hat]; exact Bool.false_ne_true)
  · cases heq
    rw [hw, attempt_pack hwf (show Fits (.markEvicting only) v from trivial)] at hat
    have : v.pins = 0 := by
      simp only [View.attempt] at hat
      split_ifs at hat with hg
      · exact hg.2.1
      · cases hat
    omega

/-- Steps that load the chunk. -/
def loadActs : List (Act Op Unit) :=
  [.call () .markQueued, .finish (), .call () .markAllocated, .finish (),
    .call () .takeLoading, .finish (), .call () .markCached, .finish ()]

/-- A reader pins a loaded chunk and is inside `release_read`. -/
theorem pins_counted_one_reader : ∃ s : Pins Unit,
    run (guarded step BelowLimit) start
      (loadActs ++ [Act.call () .acquireRead, .finish (), .call () .releaseRead]) = some s ∧
    s.pinned = 1 ∧ s.released = 0 ∧ pinCount s.cfg.word + s.released = s.pinned := by
  obtain ⟨s, h, hp, hr⟩ : ∃ s : Pins Unit, run (guarded step BelowLimit) start
      (loadActs ++ [Act.call () .acquireRead, .finish (), .call () .releaseRead]) = some s ∧
      s.pinned = 1 ∧ s.released = 0 := ⟨_, rfl, rfl, rfl⟩
  exact ⟨s, h, hp, hr, (pins_counted h).1⟩

/-- An operation that runs alone. -/
theorem run_op (ht : s.cfg.pending t = none) (hmay : s.MayCall (.call t op)) :
    ∃ s', run step s [.call t op, .finish t] = some s' ∧
      s'.cfg.word = ((attempt op s.cfg.word).apply s.cfg.word).1 ∧ s'.cfg.pending t = none ∧
      s'.pinned = s.pinned + takes (some (op, ((attempt op s.cfg.word).apply s.cfg.word).2)) ∧
      s'.releaseCalls = s.releaseCalls + calls (.call t op) ∧
      s'.released = s.released + calls (.call t op) := by
  have hfin (s : Pins T) : s.MayCall (.finish t) := trivial
  cases hat : attempt op s.cfg.word <;>
    simp [step, hmay, hfin, stepRet, ht, hat, Attempt.apply, takes, frees, calls]

theorem run_call (ht : s.cfg.pending t = none) (hmay : s.MayCall (.call t op)) :
    run step s [.call t op] = some { s with
      cfg := { s.cfg with pending := Function.update s.cfg.pending t (some (op, s.cfg.word)) }
      releaseCalls := s.releaseCalls + calls (.call t op) } := by
  simp [step, hmay, stepRet, ht, takes, frees]

/-- The word of a loaded chunk with `n` pins. -/
def pinnedWord (n : ℕ) : Word :=
  pack { state := if n = 0 then .cached else .inUse, pins := n }

theorem wf_pinned {n : ℕ} (hn : n ≤ maxPins) :
    View.Wf { state := if n = 0 then .cached else .inUse, pins := n } :=
  ⟨by unfold maxPins at hn; simp only; omega, encodable_unset, by norm_num⟩

theorem acquireRead_pinnedWord {n : ℕ} (hn : n ≤ maxPins) :
    (attempt .acquireRead (pinnedWord n)).apply (pinnedWord n) =
      (pinnedWord (min (n + 1) maxPins), { ok := true }) := by
  have hr : View.Readable { state := if n = 0 then .cached else .inUse, pins := n } := by
    unfold View.Readable
    by_cases h : n = 0 <;> simp [h]
  unfold pinnedWord
  rw [attempt_pack (wf_pinned hn) (show Fits .acquireRead _ from trivial)]
  simp only [View.attempt, if_pos hr, View.pinOnce]
  by_cases h : n = maxPins
  · subst h
    simp [Attempt.map, Attempt.apply]
  · rw [if_neg (show ¬n ≥ maxPins by omega), show min (n + 1) maxPins = n + 1 by omega]
    rfl

theorem releaseRead_pinnedWord {n : ℕ} (hn : n + 1 ≤ maxPins) :
    ((attempt .releaseRead (pinnedWord (n + 1))).apply (pinnedWord (n + 1))).1 = pinnedWord n := by
  unfold pinnedWord
  rw [attempt_pack (wf_pinned hn) (show Fits .releaseRead _ from Nat.succ_pos n)]
  rfl

theorem markEvicting_pinnedWord : attempt (.markEvicting true) (pinnedWord 0) =
    .swap (pack { state := .evicting }) { ok := true } := by
  decide

theorem run_load : ∃ s : Pins Unit, run step start loadActs = some s ∧
    s.cfg.word = pinnedWord 0 ∧ s.cfg.pending () = none ∧ s.pinned = 0 ∧ s.releaseCalls = 0 ∧
      s.released = 0 :=
  ⟨_, rfl, by decide, rfl, rfl, rfl, rfl⟩

theorem min_min_add_one (n k : ℕ) : min (min n k + 1) k = min (n + 1) k := by
  omega

/-- `n` calls of `acquire_read` on a loaded chunk: all are reported, and the
    count stops at `MAX_PINS`. -/
theorem run_pins (n : ℕ) : ∃ (as : List (Act Op Unit)) (s : Pins Unit),
    run step start as = some s ∧ s.cfg.word = pinnedWord (min n maxPins) ∧
      s.cfg.pending () = none ∧ s.pinned = n ∧ s.releaseCalls = 0 ∧ s.released = 0 := by
  obtain ⟨s0, h0, hI0⟩ := run_load
  obtain ⟨s, h, hI⟩ := run_range step (fun _ => [.call () .acquireRead, .finish ()])
    (P := fun n s => s.cfg.word = pinnedWord (min n maxPins) ∧ s.cfg.pending () = none ∧
      s.pinned = n ∧ s.releaseCalls = 0 ∧ s.released = 0) n (by
      rintro n s - ⟨hw, hp, hn, hc, hr⟩
      have hpin := acquireRead_pinnedWord (show min n maxPins ≤ maxPins by omega)
      obtain ⟨s', hrun, hw', hp', hn', hc', hr'⟩ := run_op hp
        (show s.MayCall (.call () .acquireRead) from ⟨trivial, by rintro ⟨⟩⟩)
      rw [hw, hpin] at hw' hn'
      refine ⟨s', hrun, ?_, hp', by rw [hn', hn]; rfl, hc'.trans hc, hr'.trans hr⟩
      rw [hw', min_min_add_one])
    (by rw [Nat.zero_min]; exact hI0)
  exact ⟨_, s, run_trans h0 h, hI⟩

/-- After as many releases as the count can hold, the chunk looks idle,
    however many pins were reported. -/
theorem run_pins_release {n : ℕ} (hn : maxPins ≤ n) : ∃ (as : List (Act Op Unit)) (s : Pins Unit),
    run step start as = some s ∧ s.cfg.word = pinnedWord 0 ∧ s.cfg.pending () = none ∧
      s.pinned = n ∧ s.releaseCalls = maxPins ∧ s.released = maxPins := by
  obtain ⟨as, s0, h0, hw0, hp0, hn0, hc0, hr0⟩ := run_pins n
  obtain ⟨s, h, hI⟩ := run_range step (fun _ => [.call () .releaseRead, .finish ()])
    (P := fun k s => s.cfg.word = pinnedWord (maxPins - k) ∧ s.cfg.pending () = none ∧
      s.pinned = n ∧ s.releaseCalls = k ∧ s.released = k) maxPins (by
      rintro k s hk ⟨hw, hp, hpin, hc, hr⟩
      obtain ⟨s', hrun, hw', hp', hn', hc', hr'⟩ := run_op hp
        (show s.MayCall (.call () .releaseRead) from ⟨trivial, fun _ => by omega⟩)
      rw [hw, show maxPins - k = maxPins - (k + 1) + 1 by omega,
        releaseRead_pinnedWord (by omega)] at hw'
      exact ⟨s', hrun, hw', hp', hn'.trans hpin, by rw [hc', hc]; rfl, by rw [hr', hr]; rfl⟩)
    ⟨by rw [hw0, Nat.sub_zero, min_eq_right hn], hp0, hn0, hc0, hr0⟩
  rw [Nat.sub_self] at hI
  exact ⟨_, s, run_trans h0 h, hI⟩

/-- **A saturated pin is lost.** After 4096 reported pins the stored count is
    4095. After 4095 releases `mark_evicting` succeeds while the last pin is
    outstanding, and its release then finds neither `in_use` nor a pin. -/
theorem saturated_pin_lost :
    (∃ (as : List (Act Op Unit)) (s : Pins Unit), run step start as = some s ∧
      s.pinned = 4096 ∧ s.released = 0 ∧ pinCount s.cfg.word = 4095) ∧
    (∃ (as : List (Act Op Unit)) (s : Pins Unit) (a : Act Op Unit) (c' : Config Word Op Unit),
      run step start as = some s ∧ s.released < s.pinned ∧
      stepRet attempt s.cfg a = some (c', some (.markEvicting true, { ok := true }))) ∧
    (∃ (as : List (Act Op Unit)) (s : Pins Unit) (cur : Word), run step start as = some s ∧
      s.cfg.pending () = some (.releaseRead, cur) ∧ hasState cur .inUse = false ∧
      pinCount cur = 0) := by
  obtain ⟨as, s, hrun, hw, hp, hn, hc, hr⟩ := run_pins_release (show maxPins ≤ 4096 by decide)
  have hlt : s.releaseCalls < s.pinned := by rw [hn, hc]; decide
  refine ⟨?_, ?_, ?_⟩
  · obtain ⟨as, s, hrun, hw, -, hn, -, hr⟩ := run_pins 4096
    exact ⟨as, s, hrun, hn, hr, by rw [hw]; decide⟩
  · refine ⟨_, _, .finish (), ⟨pack { state := .evicting }, Function.update (Function.update
      s.cfg.pending () (some (.markEvicting true, s.cfg.word))) () none⟩, run_trans hrun (run_call hp
      (show s.MayCall (.call () (.markEvicting true)) from ⟨trivial, by rintro ⟨⟩⟩)), ?_, ?_⟩
    · simp only [hn, hr]; decide
    · simp [stepRet, hw, markEvicting_pinnedWord]
  · obtain ⟨s1, h1, hw1, hp1, hn1, hc1, -⟩ := run_op hp
      (show s.MayCall (.call () (.markEvicting true)) from ⟨trivial, by rintro ⟨⟩⟩)
    have hmay : s1.MayCall (.call () .releaseRead) := by
      refine ⟨trivial, fun _ => ?_⟩
      rw [hn1, hc1]
      exact lt_of_lt_of_le hlt (Nat.le_add_right _ _)
    rw [hw, markEvicting_pinnedWord] at hw1
    refine ⟨_, _, s1.cfg.word, run_trans (run_trans hrun h1) (run_call hp1 hmay), ?_, ?_, ?_⟩
    · simp
    · rw [hw1]; decide
    · rw [hw1]; decide

end Pins

end Sirius.IoCache.ChunkState
