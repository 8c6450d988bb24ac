import Sirius.Common.Actors
import Sirius.Common.Bitmap
import Sirius.Common.Rotation
import Sirius.Common.Trace

/-!
# The slot pool

`io/details/slot_pool.hpp` hands out slot indexes from a bitmap of atomic words, one bit for each
slot, set where the slot is free. `acquire` looks through the words, reads the release counter,
looks through the words again and parks on the counter; `release` sets the bit, bumps the counter
and notifies one waiter. Any number of calls are in progress and their atomic operations interleave.

A modification of the counter is named by its place in the modification order, and the counter holds
that number modulo `2 ^ 64`. `notify_one` wakes at least one of the waiters that blocked on a value
older than the bump before it, if there are any; a waiter may also wake on its own.

* `Scan.advance`, `step`: the calls, one atomic operation at a time.
* `Effect`, `step_effect`: what a step can do.
* `Holding`: the free and the held slots part the indexes among them.
* `Passing`, `Covered`: the free slots beside the acquirers that are about to park, and beside those
  that have.
* `slot_pool_contract`: both over every interleaving.
-/

namespace Sirius.Io.SlotPool

open Sirius.Common Sirius.Common.Bitmap

/-! ## Looking for a slot -/

/-- A pool of at least one slot (line 127). -/
structure Pool where
  capacity : ℕ
  pos : 1 ≤ capacity

abbrev Words := ℕ → BitVec 64

/-- `_num_words`. -/
def Pool.numWords (p : Pool) : ℕ := (p.capacity + 64 - 1) / 64

/-- `full_mask` (lines 57-61). -/
def Pool.fullMask (p : Pool) (w : ℕ) : BitVec 64 :=
  lowMask (if w + 1 = p.numWords then p.capacity - w * 64 else 64)

/-- `static_cast<int>`. -/
def toInt (n : ℕ) : ℤ := (BitVec.ofNat 32 n).toInt

def noSlot : ℤ := -1

/-- A `try_acquire` in progress: the word it started with, how many it has done with, and what
    `acquire_from_word` has read of the one it is at. -/
structure Scan where
  start : ℕ
  i : ℕ := 0
  mask : Option (BitVec 64) := none
  deriving DecidableEq

/-- Where `try_acquire` starts (line 145). -/
def Pool.scan (p : Pool) (hint : BitVec 32) : Scan where
  start := if p.numWords = 1 then 0 else hint.toNat % p.numWords

/-- The word it is at (line 147). -/
def Scan.word (scan : Scan) (p : Pool) : ℕ :=
  if p.numWords = 1 then 0 else (scan.start + scan.i) % p.numWords

inductive Progress where
  | acquired (idx : ℤ)
  | scanning (scan : Scan)
  | exhausted

/-- On with the next word (lines 146-151). -/
def Scan.next (scan : Scan) (p : Pool) : Progress :=
  if scan.i + 1 < p.numWords then .scanning { scan with i := scan.i + 1, mask := none }
  else .exhausted

/-- `while (mask != 0)` (line 227). -/
def Scan.retry (scan : Scan) (p : Pool) (mask : BitVec 64) : Progress :=
  if mask = 0 then scan.next p else .scanning { scan with mask := some mask }

/-- One atomic operation of `acquire_from_word` (lines 224-235): the load, or a weak exchange, which
    may fail on its own. -/
def Scan.advance (scan : Scan) (p : Pool) (words : Words) (spurious : Bool) : Words × Progress :=
  let w := scan.word p
  match scan.mask with
  | none => (words, scan.retry p (words w))
  | some mask =>
    if words w = mask ∧ spurious = false then
      let b := mask.ctz.toNat
      let idx := toInt (w * 64 + b)
      (Function.update words w (mask &&& ~~~bit b),
        if idx = noSlot then scan.next p else .acquired idx)
    else (words, scan.retry p (words w))

/-! ## The calls -/

/-- For whom `try_acquire` looks: its caller, or `acquire` before and after it has read the
    counter. -/
inductive Purpose where
  | tryAcquire
  | first (hint : BitVec 32)
  | second (hint : BitVec 32) (taken : ℕ)
  deriving DecidableEq

/-- Where a call is. `taken` is the modification of the counter that `acquire` read, `observed` the
    one on which it blocked. -/
inductive Pc where
  | scanning (why : Purpose) (scan : Scan)
  | snapshot (hint : BitVec 32)
  | wait (hint : BitVec 32) (taken : ℕ)
  | parked (hint : BitVec 32) (taken observed : ℕ)
  | returned (idx : ℤ)
  /-- A release that has set the bit of its slot. -/
  | bump (slot : ℕ)
  /-- A release that has made the modification `bumped` of the counter. -/
  | notify (bumped : ℕ)
  | released
  deriving DecidableEq

/-- The pool with the calls on it and the indexes handed out and not given back. -/
structure System where
  words : Words
  bumps : ℕ := 0
  held : List ℤ := []
  threads : List Pc := []

def initial (p : Pool) : System where
  words := fun w => if w < p.numWords then p.fullMask w else 0

/-- The value of the counter at a modification. -/
def releaseSeq (modification : ℕ) : ℕ := modification % 2 ^ 64

/-- Where the caller of `try_acquire` goes on without a slot. -/
def Purpose.exhausted : Purpose → Pc
  | .tryAcquire => .returned noSlot
  | .first hint => .snapshot hint
  | .second hint taken => .wait hint taken

def System.put (s : System) (i : ℕ) (pc : Pc) : System := { s with threads := s.threads.set i pc }

/-- The atomic operation of a call. -/
def advance (p : Pool) (s : System) (i : ℕ) (spurious : Bool) : Option System :=
  match s.threads[i]? with
  | some (.scanning why scan) =>
    match scan.advance p s.words spurious with
    | (words, .acquired idx) =>
      some { s.put i (.returned idx) with words := words, held := idx :: s.held }
    | (words, .scanning scan) => some { s.put i (.scanning why scan) with words := words }
    | (words, .exhausted) => some { s.put i why.exhausted with words := words }
  | some (.snapshot hint) => some (s.put i (.scanning (.second hint s.bumps) (p.scan hint)))
  | some (.wait hint taken) =>
    if releaseSeq s.bumps = releaseSeq taken then some (s.put i (.parked hint taken s.bumps))
    else some (s.put i (.scanning (.first hint) (p.scan hint)))
  | some (.bump _) => some { s.put i (.notify (s.bumps + 1)) with bumps := s.bumps + 1 }
  | _ => none

/-- Who can be woken by a notification after the modification `bumped`. -/
def Pc.eligible (bumped : ℕ) : Pc → Bool
  | .parked _ _ observed => decide (observed < bumped)
  | _ => false

/-- A parked acquirer wakes up and compares again. -/
def wake (s : System) (i : ℕ) : Option System :=
  match s.threads[i]? with
  | some (.parked hint taken _) => some (s.put i (.wait hint taken))
  | _ => none

/-- `notify_one` wakes an eligible waiter, if there is one. -/
def notifyOne (s : System) (i : ℕ) (woken : Option ℕ) : Option System :=
  match s.threads[i]? with
  | some (.notify bumped) =>
    match woken with
    | some j =>
      if s.threads[j]?.any (·.eligible bumped) then wake (s.put i .released) j else none
    | none =>
      if s.threads.any (·.eligible bumped) then none else some (s.put i .released)
  | _ => none

/-- A step: a call starts or goes on. A release starts with its `fetch_or`, and gives back an index
    that was handed out. -/
inductive Act where
  | tryAcquire (hint : BitVec 32)
  | acquire (hint : BitVec 32)
  | release (idx : ℤ)
  | advance (i : ℕ) (spurious : Bool)
  | notify (i : ℕ) (woken : Option ℕ)
  | wake (i : ℕ)

/-- The call that takes the step. -/
def Act.thread : Act → Option ℕ
  | .advance i _ => some i
  | .notify i _ => some i
  | _ => none

def System.spawn (s : System) (pc : Pc) : System := { s with threads := s.threads ++ [pc] }

def step (p : Pool) (s : System) : Act → Option System
  | .tryAcquire hint => some (s.spawn (.scanning .tryAcquire (p.scan hint)))
  | .acquire hint => some (s.spawn (.scanning (.first hint) (p.scan hint)))
  | .release idx =>
    -- the assertion of line 189
    if idx ∈ s.held ∧ 0 ≤ idx ∧ idx < p.capacity then
      some { s.spawn (.bump idx.toNat) with
        words := Bitmap.insert s.words idx.toNat
        held := s.held.erase idx }
    else none
  | .advance i spurious => advance p s i spurious
  | .notify i woken => notifyOne s i woken
  | .wake i => wake s i

/-! ## What a scan does -/

variable {p : Pool} {s s' : System} {scan : Scan} {slot w i : ℕ}

theorem Pool.numWords_pos (p : Pool) : 0 < p.numWords := by
  have := p.pos
  unfold Pool.numWords
  omega

theorem Scan.word_eq (scan : Scan) (p : Pool) :
    scan.word p = (scan.start + scan.i) % p.numWords := by
  unfold Scan.word
  split_ifs with h
  · rw [h, Nat.mod_one]
  · rfl

theorem toInt_eq {n : ℕ} (h : n < 2 ^ 31) : toInt n = n := by
  have hmod : (BitVec.ofNat 32 n).toNat = n := by
    rw [BitVec.toNat_ofNat, Nat.mod_eq_of_lt (by omega)]
  unfold toInt
  rw [BitVec.toInt_eq_toNat_of_lt (by rw [hmod]; omega), hmod]

structure Scan.Wf (p : Pool) (scan : Scan) : Prop where
  within : scan.i < p.numWords
  mask : scan.mask ≠ some 0

theorem Pool.scan_wf (p : Pool) (hint : BitVec 32) : (p.scan hint).Wf p where
  within := p.numWords_pos
  mask := fun h => nomatch h

/-- What one atomic operation of a scan comes to: it has read a word with free slots, it is done
    with a word without, or it has taken a slot. -/
inductive Scan.Outcome (p : Pool) (words : Words) (scan : Scan) : Words × Progress → Prop where
  | look (h : words (scan.word p) ≠ 0) :
    Outcome p words scan (words, .scanning { scan with mask := some (words (scan.word p)) })
  | pass (h : words (scan.word p) = 0) : Outcome p words scan (words, scan.next p)
  | take (slot : ℕ) (h : member words slot) :
    Outcome p words scan (remove words slot, .acquired slot)

theorem Scan.retry_outcome (scan : Scan) (p : Pool) (words : Words) :
    Outcome p words scan (words, scan.retry p (words (scan.word p))) := by
  unfold Scan.retry
  split_ifs with h
  · exact .pass h
  · exact .look h

theorem Scan.advance_outcome {words : Words} (hwf : scan.Wf p)
    (hrange : ∀ slot, member words slot → slot < 2 ^ 31) (spurious : Bool) :
    Outcome p words scan (scan.advance p words spurious) := by
  unfold Scan.advance
  simp only
  split
  · exact scan.retry_outcome p words
  · next mask hmask =>
    split_ifs with hcas hidx
    all_goals try exact scan.retry_outcome p words
    all_goals
      obtain ⟨rfl, -⟩ := hcas
      have hne : words (scan.word p) ≠ 0 := fun h => hwf.mask (by rw [hmask, h])
      obtain ⟨hlt, hmem⟩ := lowest hne
      have hint := toInt_eq (hrange _ hmem)
    · rw [hint] at hidx
      unfold noSlot at hidx
      omega
    · have hremove : Function.update words (scan.word p) (words (scan.word p) &&&
          ~~~bit (words (scan.word p)).ctz.toNat)
          = remove words (scan.word p * 64 + (words (scan.word p)).ctz.toNat) := by
        unfold remove
        rw [show (scan.word p * 64 + (words (scan.word p)).ctz.toNat) / 64 = scan.word p by omega,
          show (scan.word p * 64 + (words (scan.word p)).ctz.toNat) % 64
            = (words (scan.word p)).ctz.toNat by omega]
      rw [hint, hremove]
      exact .take _ hmem

/-! ## What a step does -/

/-- What a step comes to. -/
inductive Effect (p : Pool) (s : System) (timely : Prop) : System → Prop where
  | start (why : Purpose) (hint : BitVec 32) (hwhy : ∀ hint taken, why ≠ .second hint taken) :
    Effect p s timely (s.spawn (.scanning why (p.scan hint)))
  | give (slot : ℕ) (hheld : (slot : ℤ) ∈ s.held) :
    Effect p s timely { s.spawn (.bump slot) with
      words := Bitmap.insert s.words slot
      held := s.held.erase slot }
  | take (i : ℕ) (why : Purpose) (scan : Scan) (slot : ℕ)
    (hi : s.threads[i]? = some (.scanning why scan)) (hslot : member s.words slot) :
    Effect p s timely { s.put i (.returned slot) with
      words := remove s.words slot
      held := slot :: s.held }
  | look (i : ℕ) (why : Purpose) (scan : Scan) (hi : s.threads[i]? = some (.scanning why scan))
    (hword : s.words (scan.word p) ≠ 0) :
    Effect p s timely (s.put i (.scanning why { scan with mask := some (s.words (scan.word p)) }))
  | pass (i : ℕ) (why : Purpose) (scan : Scan) (hi : s.threads[i]? = some (.scanning why scan))
    (hword : s.words (scan.word p) = 0) (hmore : scan.i + 1 < p.numWords) :
    Effect p s timely (s.put i (.scanning why { scan with i := scan.i + 1, mask := none }))
  | exhaust (i : ℕ) (why : Purpose) (scan : Scan) (hi : s.threads[i]? = some (.scanning why scan))
    (hword : s.words (scan.word p) = 0) (hlast : p.numWords ≤ scan.i + 1) :
    Effect p s timely (s.put i why.exhausted)
  | snapshot (i : ℕ) (hint : BitVec 32) (hi : s.threads[i]? = some (.snapshot hint)) :
    Effect p s timely (s.put i (.scanning (.second hint s.bumps) (p.scan hint)))
  | park (i : ℕ) (hint : BitVec 32) (taken : ℕ) (hi : s.threads[i]? = some (.wait hint taken))
    (hseq : releaseSeq s.bumps = releaseSeq taken) (htimely : timely → s.bumps < taken + 2 ^ 64) :
    Effect p s timely (s.put i (.parked hint taken s.bumps))
  | again (i : ℕ) (hint : BitVec 32) (taken : ℕ) (hi : s.threads[i]? = some (.wait hint taken)) :
    Effect p s timely (s.put i (.scanning (.first hint) (p.scan hint)))
  | bump (i slot : ℕ) (hi : s.threads[i]? = some (.bump slot)) :
    Effect p s timely { s.put i (.notify (s.bumps + 1)) with bumps := s.bumps + 1 }
  | nobody (i bumped : ℕ) (hi : s.threads[i]? = some (.notify bumped))
    (hnone : ∀ pc ∈ s.threads, ¬pc.eligible bumped) : Effect p s timely (s.put i .released)
  | notify (i j bumped : ℕ) (hint : BitVec 32) (taken observed : ℕ)
    (hi : s.threads[i]? = some (.notify bumped))
    (hj : s.threads[j]? = some (.parked hint taken observed)) :
    Effect p s timely ((s.put i .released).put j (.wait hint taken))
  | wake (i : ℕ) (hint : BitVec 32) (taken observed : ℕ)
    (hi : s.threads[i]? = some (.parked hint taken observed)) :
    Effect p s timely (s.put i (.wait hint taken))

/-- An acquirer that is about to compare the counter has not been overtaken by `2 ^ 64` bumps since
    it read it. -/
def Pc.timely (bumps : ℕ) : Pc → Bool
  | .wait _ taken => decide (bumps < taken + 2 ^ 64)
  | _ => true

def timely (s : System) : Act → Bool
  | .advance i _ => s.threads[i]?.all (·.timely s.bumps)
  | _ => true

/-- The pool's slots: the held indexes are distinct and a slot is free where it is not held. -/
structure Holding (p : Pool) (s : System) : Prop where
  range : ∀ idx ∈ s.held, 0 ≤ idx ∧ idx < p.capacity
  nodup : s.held.Nodup
  split : ∀ slot : ℕ, member s.words slot ↔ slot < p.capacity ∧ (slot : ℤ) ∉ s.held
  scans : ∀ why scan, Pc.scanning why scan ∈ s.threads → scan.Wf p

theorem advance_effect (hp : p.capacity ≤ 2 ^ 31) (hs : Holding p s) {spurious : Bool}
    (h : advance p s i spurious = some s') : Effect p s (timely s (.advance i spurious)) s' := by
  unfold advance at h
  split at h
  · next why scan hi =>
    have hwf := hs.scans why scan (List.mem_of_getElem? hi)
    have hrange : ∀ slot, member s.words slot → slot < 2 ^ 31 := fun slot hslot =>
      ((hs.split slot).mp hslot).1.trans_le hp
    have hout := Scan.advance_outcome hwf hrange spurious
    generalize scan.advance p s.words spurious = result at h hout
    cases hout with
    | look hword =>
      obtain rfl := Option.some.inj h
      exact .look i why scan hi hword
    | pass hword =>
      unfold Scan.next at h
      split_ifs at h with hmore
      · obtain rfl := Option.some.inj h
        exact .pass i why scan hi hword hmore
      · obtain rfl := Option.some.inj h
        exact .exhaust i why scan hi hword (not_lt.mp hmore)
    | take slot hslot =>
      obtain rfl := Option.some.inj h
      exact .take i why scan slot hi hslot
  · next hint hi =>
    obtain rfl := Option.some.inj h
    exact .snapshot i hint hi
  · next hint taken hi =>
    split_ifs at h with hseq
    · obtain rfl := Option.some.inj h
      refine .park i hint taken hi hseq fun htimely => ?_
      rwa [timely, hi, Option.all_some, Pc.timely, decide_eq_true_iff] at htimely
    · obtain rfl := Option.some.inj h
      exact .again i hint taken hi
  · next slot hi =>
    obtain rfl := Option.some.inj h
    exact .bump i slot hi
  · cases h

theorem wake_eq_some (h : wake s i = some s') : ∃ hint taken observed,
    s.threads[i]? = some (.parked hint taken observed) ∧ s' = s.put i (.wait hint taken) := by
  unfold wake at h
  split at h
  · next hint taken observed hi => exact ⟨hint, taken, observed, hi, (Option.some.inj h).symm⟩
  · cases h

theorem notifyOne_effect {woken : Option ℕ} {timely : Prop} (h : notifyOne s i woken = some s') :
    Effect p s timely s' := by
  unfold notifyOne at h
  split at h
  · next bumped hi =>
    split at h
    · next j =>
      obtain ⟨heligible, hwake⟩ := Option.ite_none_right_eq_some.mp h
      obtain ⟨hint, taken, observed, hj, rfl⟩ := wake_eq_some hwake
      -- the waiter is not the notifier
      have hne : i ≠ j := by
        rintro rfl
        rw [hi] at heligible
        cases heligible
      rw [System.put, List.getElem?_set_ne hne] at hj
      exact .notify i j bumped hint taken observed hi hj
    · split_ifs at h with hany
      obtain rfl := Option.some.inj h
      refine .nobody i bumped hi fun pc hpc heligible => hany ?_
      exact List.any_eq_true.mpr ⟨pc, hpc, heligible⟩
  · cases h

/-- **What a step can do.** -/
theorem step_effect (hp : p.capacity ≤ 2 ^ 31) (hs : Holding p s) {act : Act}
    (h : step p s act = some s') : Effect p s (timely s act) s' := by
  cases act with
  | tryAcquire hint =>
    obtain rfl := Option.some.inj h
    exact .start .tryAcquire hint (by simp)
  | acquire hint =>
    obtain rfl := Option.some.inj h
    exact .start (.first hint) hint (by simp)
  | release idx =>
    obtain ⟨⟨hheld, hnonneg, -⟩, heq⟩ := Option.ite_none_right_eq_some.mp h
    obtain rfl := Option.some.inj heq
    obtain ⟨slot, rfl⟩ := Int.eq_ofNat_of_zero_le hnonneg
    exact .give slot hheld
  | advance i spurious => exact advance_effect hp hs h
  | notify i woken => exact notifyOne_effect h
  | wake i =>
    obtain ⟨hint, taken, observed, hi, rfl⟩ := wake_eq_some h
    exact .wake i hint taken observed hi

/-! ## The slots -/

theorem mem_put {pc pc' : Pc} (h : pc ∈ (s.put i pc').threads) : pc ∈ s.threads ∨ pc = pc' :=
  List.mem_or_eq_of_mem_set h

theorem Holding.put {pc : Pc} (h : Holding p s)
    (hpc : ∀ why scan, pc = .scanning why scan → scan.Wf p) : Holding p (s.put i pc) where
  range := h.range
  nodup := h.nodup
  split := h.split
  scans := by
    intro why scan hmem
    rcases mem_put hmem with hmem | heq
    · exact h.scans why scan hmem
    · exact hpc why scan heq.symm

theorem Holding.spawn {pc : Pc} (h : Holding p s)
    (hpc : ∀ why scan, pc = .scanning why scan → scan.Wf p) : Holding p (s.spawn pc) where
  range := h.range
  nodup := h.nodup
  split := h.split
  scans := by
    intro why scan hmem
    rcases List.mem_append.mp hmem with hmem | hmem
    · exact h.scans why scan hmem
    · exact hpc why scan (List.mem_singleton.mp hmem).symm

theorem Holding.give (h : Holding p s) (hheld : (slot : ℤ) ∈ s.held) :
    Holding p { s with words := Bitmap.insert s.words slot, held := s.held.erase slot } where
  range := fun idx hidx => h.range idx (List.mem_of_mem_erase hidx)
  nodup := h.nodup.erase _
  split := by
    intro other
    have hsplit := h.split other
    rw [member_insert, h.nodup.mem_erase_iff, Bool.or_eq_true, decide_eq_true_iff, hsplit]
    by_cases heq : other = slot
    · subst heq
      simpa using (h.range _ hheld).2
    · simp [heq]
  scans := h.scans

theorem Holding.take (h : Holding p s) (hslot : member s.words slot) :
    Holding p { s with words := remove s.words slot, held := slot :: s.held } where
  range := by
    intro idx hidx
    rcases List.mem_cons.mp hidx with rfl | hidx
    · exact ⟨Int.natCast_nonneg _, by exact_mod_cast ((h.split slot).mp hslot).1⟩
    · exact h.range idx hidx
  nodup := List.nodup_cons.mpr ⟨((h.split slot).mp hslot).2, h.nodup⟩
  split := by
    intro other
    rw [member_remove, Bool.and_eq_true, h.split other, List.mem_cons]
    simp only [Bool.not_eq_true', decide_eq_false_iff_not, Nat.cast_inj, not_or]
    tauto
  scans := h.scans

theorem exhausted_ne_scanning (why why' : Purpose) (scan : Scan) :
    why.exhausted ≠ .scanning why' scan := by
  cases why <;> exact fun h => nomatch h

theorem Effect.holding {timely : Prop} (hs : Holding p s) (h : Effect p s timely s') :
    Holding p s' := by
  -- a scan that starts
  have hscan : ∀ why hint why' scan, Pc.scanning why (p.scan hint) = .scanning why' scan →
      scan.Wf p := by
    intro why hint why' scan heq
    obtain ⟨-, rfl⟩ := Pc.scanning.inj heq
    exact p.scan_wf hint
  cases h with
  | start why hint hwhy => exact hs.spawn (hscan why hint)
  | give slot hheld => exact (hs.give hheld).spawn fun _ _ h => nomatch h
  | take i why scan slot hi hslot => exact (hs.take hslot).put fun _ _ h => nomatch h
  | look i why scan hi hword =>
    have hwf := hs.scans why scan (List.mem_of_getElem? hi)
    refine hs.put fun why' scan' heq => ?_
    obtain ⟨-, rfl⟩ := Pc.scanning.inj heq
    exact ⟨hwf.within, fun hmask => hword (Option.some.inj hmask)⟩
  | pass i why scan hi hword hmore =>
    refine hs.put fun why' scan' heq => ?_
    obtain ⟨-, rfl⟩ := Pc.scanning.inj heq
    exact ⟨hmore, Option.some_ne_none 0 |>.symm⟩
  | exhaust i why scan hi hword hlast =>
    exact hs.put fun why' scan' heq => absurd heq (exhausted_ne_scanning why why' scan')
  | snapshot i hint hi => exact hs.put (hscan _ hint)
  | park i hint taken hi hseq _ => exact hs.put fun _ _ h => nomatch h
  | again i hint taken hi => exact hs.put (hscan _ hint)
  | bump i slot hi =>
    have hbumped : Holding p { s with bumps := s.bumps + 1 } :=
      ⟨hs.range, hs.nodup, hs.split, hs.scans⟩
    exact hbumped.put fun _ _ h => nomatch h
  | nobody i bumped hi hnone => exact hs.put fun _ _ h => nomatch h
  | notify i j bumped hint taken observed hi hj =>
    have hreleased : Holding p (s.put i .released) := hs.put fun _ _ h => nomatch h
    exact hreleased.put fun _ _ h => nomatch h
  | wake i hint taken observed hi => exact hs.put fun _ _ h => nomatch h

/-- At first every slot is free. -/
theorem holding_initial (p : Pool) : Holding p (initial p) where
  range := fun _ h => nomatch h
  nodup := List.nodup_nil
  split := by
    intro slot
    have hpos := p.pos
    have hwords : p.numWords = (p.capacity + 64 - 1) / 64 := rfl
    have hheld : (slot : ℤ) ∉ (initial p).held := List.not_mem_nil
    have hword : (initial p).words (slot / 64) =
        if slot / 64 < p.numWords then p.fullMask (slot / 64) else 0 := rfl
    rw [and_iff_left hheld, member, hword, Pool.fullMask]
    split_ifs with hw hlast
    · rw [getLsbD_lowMask (by omega), decide_eq_true_iff]
      omega
    · rw [getLsbD_lowMask le_rfl, decide_eq_true_iff]
      omega
    · have hzero : (0 : BitVec 64).getLsbD (slot % 64) = false := BitVec.getLsbD_zero
      rw [hzero, Bool.false_eq_true, false_iff]
      omega
  scans := fun _ _ h => nomatch h

/-- The slots that are free. -/
def free (p : Pool) (s : System) : Finset ℕ :=
  (Finset.range (p.numWords * 64)).filter fun slot => member s.words slot

theorem Holding.mem_free (h : Holding p s) : slot ∈ free p s ↔ member s.words slot := by
  have hwords : p.numWords = (p.capacity + 64 - 1) / 64 := rfl
  unfold free
  rw [Finset.mem_filter, Finset.mem_range, and_iff_right_iff_imp]
  intro hslot
  have := ((h.split slot).mp hslot).1
  omega

theorem Holding.word_lt (h : Holding p s) (hslot : member s.words slot) :
    slot / 64 < p.numWords := by
  have hfree := h.mem_free.mpr hslot
  have := Finset.mem_range.mp (Finset.mem_filter.mp hfree).1
  omega

/-- Free and held slots number the capacity. -/
theorem Holding.count (h : Holding p s) : (free p s).card + s.held.length = p.capacity := by
  have hinj : ∀ a ∈ s.held, ∀ b ∈ s.held, a.toNat = b.toNat → a = b := by
    intro a ha b hb heq
    have := (h.range a ha).1
    have := (h.range b hb).1
    omega
  have hlength : (s.held.map Int.toNat).toFinset.card = s.held.length := by
    rw [List.toFinset_card_of_nodup (h.nodup.map_on hinj), List.length_map]
  have hdisjoint : Disjoint (free p s) (s.held.map Int.toNat).toFinset := by
    refine Finset.disjoint_left.mpr fun slot hfree hheld => ?_
    obtain ⟨idx, hidx, rfl⟩ := List.mem_map.mp (List.mem_toFinset.mp hheld)
    refine ((h.split _).mp (h.mem_free.mp hfree)).2 ?_
    rwa [Int.toNat_of_nonneg (h.range idx hidx).1]
  have hunion : free p s ∪ (s.held.map Int.toNat).toFinset = Finset.range p.capacity := by
    ext slot
    rw [Finset.mem_union, h.mem_free, h.split, List.mem_toFinset, List.mem_map, Finset.mem_range]
    constructor
    · rintro (⟨hlt, -⟩ | ⟨idx, hidx, rfl⟩)
      · exact hlt
      · have := h.range idx hidx
        omega
    · intro hlt
      by_cases hheld : (slot : ℤ) ∈ s.held
      · exact .inr ⟨slot, hheld, Int.toNat_natCast slot⟩
      · exact .inl ⟨hlt, hheld⟩
  rw [← hlength, ← Finset.card_union_of_disjoint hdisjoint, hunion, Finset.card_range]

/-! ## The waiters -/

/-- The words that an acquirer has found without free slots since it read the counter, as long as
    the counter is still at `bumps`. -/
def Pc.Passed (p : Pool) (bumps w : ℕ) : Pc → Prop
  | .scanning (.second _ taken) scan =>
    taken = bumps ∧ ∃ k < scan.i, w = (scan.start + k) % p.numWords
  | .wait _ taken => taken = bumps
  | .parked _ taken _ => taken = bumps
  | _ => False

/-- The latest modification of the counter that a call has read. -/
def Pc.latest : Pc → ℕ
  | .scanning (.second _ taken) _ => taken
  | .wait _ taken => taken
  | .parked _ taken observed => max taken observed
  | _ => 0

/-- A free slot that an acquirer has passed is that of a release that has yet to bump the
    counter. -/
structure Passing (p : Pool) (s : System) : Prop where
  latest : ∀ pc ∈ s.threads, pc.latest ≤ s.bumps
  passed : ∀ pc ∈ s.threads, ∀ slot, pc.Passed p s.bumps (slot / 64) → member s.words slot →
    Pc.bump slot ∈ s.threads

/-- An acquirer awake in its loop. -/
def Pc.awake : Pc → ℕ
  | .scanning (.first _) _ => 1
  | .scanning (.second _ _) _ => 1
  | .snapshot _ => 1
  | .wait _ _ => 1
  | _ => 0

/-- A release that has set its bit and has not notified. -/
def Pc.pending : Pc → ℕ
  | .bump _ => 1
  | .notify _ => 1
  | _ => 0

/-- What stands for a free slot beside an acquirer that blocked on the modification `observed`: an
    acquirer that is awake, or a release whose notification can reach it. -/
def Pc.covers (observed : ℕ) : Pc → ℕ
  | .notify bumped => if observed < bumped then 1 else 0
  | pc => pc.awake + pc.pending

/-- The free slots beside a parked acquirer all have something that stands for them. -/
def Covered (p : Pool) (s : System) : Prop :=
  ∀ hint taken observed, Pc.parked hint taken observed ∈ s.threads →
    (free p s).card ≤ total (Pc.covers observed) s.threads

theorem mem_put_of_ne {pc pc' other : Pc} (hi : s.threads[i]? = some pc) (hmem : other ∈ s.threads)
    (hne : other ≠ pc) : other ∈ (s.put i pc').threads := by
  obtain ⟨j, hj⟩ := List.mem_iff_getElem?.mp hmem
  have hij : i ≠ j := by
    rintro rfl
    exact hne (Option.some.inj (hj.symm.trans hi))
  exact List.mem_iff_getElem?.mpr ⟨j, by rw [System.put, List.getElem?_set_ne hij, hj]⟩

theorem Passing.put {pc pc' : Pc} (h : Passing p s) (hi : s.threads[i]? = some pc)
    (hbump : ∀ slot, Pc.bump slot ≠ pc) (hlatest : pc'.latest ≤ s.bumps)
    (hpassed : ∀ slot, pc'.Passed p s.bumps (slot / 64) → member s.words slot →
      Pc.bump slot ∈ s.threads) : Passing p (s.put i pc') where
  latest := by
    intro other hmem
    rcases mem_put hmem with hmem | rfl
    · exact h.latest other hmem
    · exact hlatest
  passed := by
    intro other hmem slot hpass hslot
    have hold : Pc.bump slot ∈ s.threads := by
      rcases mem_put hmem with hmem | rfl
      · exact h.passed other hmem slot hpass hslot
      · exact hpassed slot hpass hslot
    exact mem_put_of_ne hi hold (hbump slot)

theorem Passing.spawn {pc : Pc} (h : Passing p s) (hlatest : pc.latest = 0)
    (hpassed : ∀ w, ¬pc.Passed p s.bumps w) : Passing p (s.spawn pc) where
  latest := by
    intro other hmem
    rcases List.mem_append.mp hmem with hmem | hmem
    · exact h.latest other hmem
    · rw [List.mem_singleton.mp hmem, hlatest]
      exact Nat.zero_le _
  passed := by
    intro other hmem slot hpass hslot
    rcases List.mem_append.mp hmem with hmem | hmem
    · exact List.mem_append_left _ (h.passed other hmem slot hpass hslot)
    · rw [List.mem_singleton.mp hmem] at hpass
      exact absurd hpass (hpassed _)

theorem Passing.take (h : Passing p s) (idx : ℤ) :
    Passing p { s with words := remove s.words slot, held := idx :: s.held } where
  latest := h.latest
  passed := by
    intro pc hmem other hpass hother
    rw [member_remove, Bool.and_eq_true] at hother
    exact h.passed pc hmem other hpass hother.1

theorem Passing.give (h : Passing p s) (idx : ℤ) :
    Passing p { s.spawn (.bump slot) with
      words := Bitmap.insert s.words slot
      held := s.held.erase idx } where
  latest := by
    have hspawn : Passing p (s.spawn (.bump slot)) := h.spawn rfl fun _ hpass => hpass
    exact hspawn.latest
  passed := by
    intro pc hmem other hpass hother
    have hspawn : Passing p (s.spawn (.bump slot)) := h.spawn rfl fun _ hpass => hpass
    rw [member_insert, Bool.or_eq_true, decide_eq_true_iff] at hother
    rcases hother with rfl | hother
    · exact List.mem_append_right _ (List.mem_singleton_self _)
    · exact hspawn.passed pc hmem other hpass hother

theorem Pc.Passed.le_latest {pc : Pc} {bumps : ℕ} (h : pc.Passed p bumps w) :
    bumps ≤ pc.latest := by
  unfold Pc.Passed at h
  unfold Pc.latest
  split at h
  · exact h.1.ge
  · exact h.ge
  · exact h.ge.trans (le_max_left _ _)
  · exact h.elim

/-- A bump leaves nobody behind that has passed anything. -/
theorem Passing.bump {bumped : ℕ} (h : Passing p s) :
    Passing p { s.put i (.notify bumped) with bumps := s.bumps + 1 } where
  latest := by
    intro pc hmem
    rcases mem_put hmem with hmem | rfl
    · exact (h.latest pc hmem).trans (Nat.le_succ _)
    · exact Nat.zero_le _
  passed := by
    intro pc hmem slot hpass _
    have hle : s.bumps + 1 ≤ pc.latest := hpass.le_latest
    rcases mem_put hmem with hmem | rfl
    · have := h.latest pc hmem
      omega
    · exact hpass.elim

/-- A word without free slots is passed. -/
theorem Passing.word (h : Passing p s) {hint : BitVec 32} {taken : ℕ}
    (hmem : .scanning (.second hint taken) scan ∈ s.threads)
    (hword : s.words (scan.word p) = 0) (htaken : taken = s.bumps) (hslot : member s.words slot)
    {k : ℕ} (hk : k < scan.i + 1) (hw : slot / 64 = (scan.start + k) % p.numWords) :
    Pc.bump slot ∈ s.threads := by
  rcases Nat.lt_succ_iff_lt_or_eq.mp hk with hk | rfl
  · exact h.passed _ hmem slot ⟨htaken, k, hk, hw⟩ hslot
  · rw [Scan.word_eq, ← hw] at hword
    rw [not_member_of_zero hword] at hslot
    cases hslot

/-- The notifier is not the waiter. -/
theorem parked_put {j bumped taken observed : ℕ} {hint : BitVec 32}
    (hi : s.threads[i]? = some (.notify bumped))
    (hj : s.threads[j]? = some (.parked hint taken observed)) :
    (s.put i .released).threads[j]? = some (.parked hint taken observed) := by
  have hne : i ≠ j := by
    rintro rfl
    cases hi.symm.trans hj
  rw [System.put, List.getElem?_set_ne hne, hj]

theorem Passing.wake (h : Passing p s) {hint : BitVec 32} {taken observed : ℕ}
    (hi : s.threads[i]? = some (.parked hint taken observed)) :
    Passing p (s.put i (.wait hint taken)) := by
  have hmem := List.mem_of_getElem? hi
  have hpassed := h.passed _ hmem
  exact h.put hi (fun _ h => nomatch h) ((le_max_left _ _).trans (h.latest _ hmem)) hpassed

theorem latest_scanning (why : Purpose) (scan scan' : Scan) :
    (Pc.scanning why scan).latest = (Pc.scanning why scan').latest := by
  cases why <;> rfl

theorem Effect.passing {timely : Prop} (hh : Holding p s) (hs : Passing p s)
    (h : Effect p s timely s') : Passing p s' := by
  cases h with
  | start why hint hwhy =>
    cases why with
    | tryAcquire => exact hs.spawn rfl fun _ hpass => hpass
    | first hint' => exact hs.spawn rfl fun _ hpass => hpass
    | second hint' taken => exact absurd rfl (hwhy hint' taken)
  | give slot hheld => exact hs.give slot
  | take i why scan slot hi hslot =>
    exact (hs.take slot).put hi (fun _ h => nomatch h) (Nat.zero_le _) fun _ hpass => hpass.elim
  | look i why scan hi hword =>
    have hmem := List.mem_of_getElem? hi
    have hlatest := hs.latest _ hmem
    have hpassed := hs.passed _ hmem
    rw [latest_scanning why scan] at hlatest
    refine hs.put hi (fun _ h => nomatch h) hlatest ?_
    cases why with
    | tryAcquire => exact hpassed
    | first hint => exact hpassed
    | second hint taken => exact hpassed
  | pass i why scan hi hword hmore =>
    have hmem := List.mem_of_getElem? hi
    have hlatest := hs.latest _ hmem
    rw [latest_scanning why scan] at hlatest
    refine hs.put hi (fun _ h => nomatch h) hlatest fun slot hpass hslot => ?_
    cases why with
    | tryAcquire => exact hpass.elim
    | first hint => exact hpass.elim
    | second hint taken =>
      obtain ⟨htaken, k, hk, hw⟩ := hpass
      exact hs.word hmem hword htaken hslot hk hw
  | exhaust i why scan hi hword hlast =>
    have hmem := List.mem_of_getElem? hi
    cases why with
    | tryAcquire | first _ =>
      exact hs.put hi (fun _ h => nomatch h) (Nat.zero_le _) fun _ hpass => hpass.elim
    | second hint taken =>
      have hlatest := hs.latest _ hmem
      refine hs.put hi (fun _ h => nomatch h) hlatest fun slot htaken hslot => ?_
      obtain ⟨k, hk, hw⟩ := exists_turn scan.start (hh.word_lt hslot)
      exact hs.word hmem hword htaken hslot (by omega) hw.symm
  | snapshot i hint hi =>
    refine hs.put hi (fun _ h => nomatch h) le_rfl fun slot hpass _ => ?_
    obtain ⟨-, k, hk, -⟩ := hpass
    exact absurd hk (Nat.not_lt_zero k)
  | park i hint taken hi hseq _ =>
    have hmem := List.mem_of_getElem? hi
    have hpassed := hs.passed _ hmem
    exact hs.put hi (fun _ h => nomatch h) (max_le (hs.latest _ hmem) le_rfl) hpassed
  | again i hint taken hi =>
    exact hs.put hi (fun _ h => nomatch h) (Nat.zero_le _) fun _ hpass => hpass.elim
  | bump i slot hi => exact hs.bump
  | nobody i bumped hi hnone =>
    exact hs.put hi (fun _ h => nomatch h) (Nat.zero_le _) fun _ hpass => hpass.elim
  | notify i j bumped hint taken observed hi hj =>
    have hreleased : Passing p (s.put i .released) :=
      hs.put hi (fun _ h => nomatch h) (Nat.zero_le _) fun _ hpass => hpass.elim
    exact hreleased.wake (parked_put hi hj)
  | wake i hint taken observed hi => exact hs.wake hi

theorem Covered.put {pc pc' : Pc} (h : Covered p s) (hi : s.threads[i]? = some pc)
    (hparked : ∀ hint taken observed, Pc.parked hint taken observed ≠ pc')
    (hcovers : ∀ hint taken observed, Pc.parked hint taken observed ∈ s.threads →
      pc.covers observed ≤ pc'.covers observed) : Covered p (s.put i pc') := by
  intro hint taken observed hmem
  have hold := (mem_put hmem).resolve_right (hparked hint taken observed)
  have hle := h hint taken observed hold
  have hcover := hcovers hint taken observed hold
  have htotal : total (Pc.covers observed) (s.put i pc').threads + pc.covers observed
      = total (Pc.covers observed) s.threads + pc'.covers observed := total_set hi pc'
  show (free p s).card ≤ _
  omega

/-- A slot is taken by a call that stood for at most one. -/
theorem Covered.take {why : Purpose} (h : Covered p s) (hh : Holding p s)
    (hi : s.threads[i]? = some (.scanning why scan)) (hslot : member s.words slot) :
    Covered p { s.put i (.returned slot) with
      words := remove s.words slot
      held := slot :: s.held } := by
  intro hint taken observed hmem
  have hold := (mem_put hmem).resolve_right fun h => nomatch h
  have hle := h hint taken observed hold
  have htotal := total_set (w := Pc.covers observed) hi (.returned slot)
  have hone : (Pc.scanning why scan).covers observed ≤ 1 := by
    cases why with
    | tryAcquire => exact Nat.zero_le _
    | first hint => exact le_rfl
    | second hint taken => exact le_rfl
  have hnone : (Pc.returned slot).covers observed = 0 := rfl
  have hlt : ((free p s).filter (· ≠ slot)).card < (free p s).card := by
    refine Finset.card_lt_card (Finset.filter_ssubset.mpr ⟨slot, hh.mem_free.mpr hslot, ?_⟩)
    exact fun hne => hne rfl
  have hfree : (free p { s.put i (.returned slot) with
      words := remove s.words slot, held := slot :: s.held })
      = (free p s).filter (· ≠ slot) := by
    unfold free
    rw [Finset.filter_filter]
    refine Finset.filter_congr fun other _ => ?_
    simp only [member_remove, Bool.and_eq_true, Bool.not_eq_true', decide_eq_false_iff_not, ne_eq]
  rw [hfree]
  show _ ≤ total (Pc.covers observed) (s.threads.set i (.returned slot))
  omega

/-- A slot is freed by a release that stands for it. -/
theorem Covered.give (h : Covered p s) (idx : ℤ) :
    Covered p { s.spawn (.bump slot) with
      words := Bitmap.insert s.words slot
      held := s.held.erase idx } := by
  intro hint taken observed hmem
  have hold : Pc.parked hint taken observed ∈ s.threads := by
    rcases List.mem_append.mp hmem with hmem | hmem
    · exact hmem
    · cases List.mem_singleton.mp hmem
  have hle := h hint taken observed hold
  have hsub : free p { s.spawn (.bump slot) with
      words := Bitmap.insert s.words slot, held := s.held.erase idx }
      ⊆ insert slot (free p s) := by
    intro other hother
    obtain ⟨hrange, hmember⟩ := Finset.mem_filter.mp hother
    rw [member_insert, Bool.or_eq_true, decide_eq_true_iff] at hmember
    rcases hmember with rfl | hmember
    · exact Finset.mem_insert_self _ _
    · exact Finset.mem_insert_of_mem (Finset.mem_filter.mpr ⟨hrange, hmember⟩)
  have hcard := (Finset.card_le_card hsub).trans (Finset.card_insert_le _ _)
  show _ ≤ total (Pc.covers observed) (s.threads ++ [Pc.bump slot])
  rw [total_append, total_cons, total_nil, show (Pc.bump slot).covers observed = 1 from rfl]
  omega

theorem Covered.spawn {pc : Pc} (h : Covered p s)
    (hparked : ∀ hint taken observed, Pc.parked hint taken observed ≠ pc) :
    Covered p (s.spawn pc) := by
  intro hint taken observed hmem
  have hold : Pc.parked hint taken observed ∈ s.threads := by
    rcases List.mem_append.mp hmem with hmem | hmem
    · exact hmem
    · exact absurd (List.mem_singleton.mp hmem) (hparked hint taken observed)
  show (free p s).card ≤ total (Pc.covers observed) (s.threads ++ [pc])
  rw [total_append]
  exact (h hint taken observed hold).trans (Nat.le_add_right _ _)

/-- An acquirer that parks with nothing bumped since it read the counter. -/
theorem Covered.park {hint : BitVec 32} (hh : Holding p s) (hs : Passing p s)
    (hi : s.threads[i]? = some (.wait hint s.bumps)) :
    Covered p (s.put i (.parked hint s.bumps s.bumps)) := by
  intro _ _ observed _
  show (free p s).card ≤ _
  refine card_le_total Pc.bump (fun _ _ h => Pc.bump.inj h) (fun slot hslot => ?_) fun _ => le_rfl
  have hbump := hs.passed _ (List.mem_of_getElem? hi) slot rfl (hh.mem_free.mp hslot)
  exact mem_put_of_ne hi hbump fun h => nomatch h

theorem covers_notify_le (observed bumped : ℕ) : (Pc.notify bumped).covers observed ≤ 1 := by
  show (if observed < bumped then 1 else 0) ≤ 1
  split_ifs <;> omega

/-- The notification is over, and an acquirer is awake in its place. -/
theorem Covered.notify {j bumped taken observed : ℕ} {hint : BitVec 32} (h : Covered p s)
    (hi : s.threads[i]? = some (.notify bumped))
    (hj : s.threads[j]? = some (.parked hint taken observed)) :
    Covered p ((s.put i .released).put j (.wait hint taken)) := by
  intro hint' taken' observed' hmem
  have hput := (mem_put hmem).resolve_right fun h => nomatch h
  have hold := (mem_put hput).resolve_right fun h => nomatch h
  have hle := h hint' taken' observed' hold
  have hcovers := covers_notify_le observed' bumped
  have hreleased : total (Pc.covers observed') (s.put i .released).threads
      + (Pc.notify bumped).covers observed' = total (Pc.covers observed') s.threads + 0 :=
    total_set hi .released
  have hwait :
      total (Pc.covers observed') ((s.put i .released).put j (.wait hint taken)).threads + 0
      = total (Pc.covers observed') (s.put i .released).threads + 1 :=
    total_set (parked_put hi hj) (.wait hint taken)
  show (free p s).card ≤ _
  omega

theorem Effect.covered {timely : Prop} (hh : Holding p s) (hs : Passing p s) (hc : Covered p s)
    (h : Effect p s timely s') (htimely : timely) : Covered p s' := by
  cases h with
  | start why hint hwhy => exact hc.spawn fun _ _ _ h => nomatch h
  | give slot hheld => exact hc.give slot
  | take i why scan slot hi hslot => exact hc.take hh hi hslot
  | look _ why _ hi _ | pass _ why _ hi _ _ =>
    refine hc.put hi (fun _ _ _ h => nomatch h) fun _ _ _ _ => ?_
    cases why <;> exact le_rfl
  | exhaust i why scan hi hword hlast =>
    refine hc.put hi (fun _ _ _ h => ?_) fun _ _ _ _ => ?_
    · cases why <;> cases h
    · cases why <;> exact le_rfl
  | snapshot i hint hi => exact hc.put hi (fun _ _ _ h => nomatch h) fun _ _ _ _ => le_rfl
  | park i hint taken hi hseq hlate =>
    -- the values agree and less than a turn of the counter lies between them
    have hle : taken ≤ s.bumps := hs.latest _ (List.mem_of_getElem? hi)
    have hlt := hlate htimely
    have htaken : taken = s.bumps := by
      unfold releaseSeq at hseq
      omega
    subst htaken
    exact Covered.park hh hs hi
  | again i hint taken hi => exact hc.put hi (fun _ _ _ h => nomatch h) fun _ _ _ _ => le_rfl
  | bump i slot hi =>
    refine hc.put hi (fun _ _ _ h => nomatch h) fun hint taken observed hmem => ?_
    have hobserved : observed ≤ s.bumps := (le_max_right _ _).trans (hs.latest _ hmem)
    show 1 ≤ if observed < s.bumps + 1 then 1 else 0
    rw [if_pos (Nat.lt_succ_of_le hobserved)]
  | nobody i bumped hi hnone =>
    refine hc.put hi (fun _ _ _ h => nomatch h) fun hint taken observed hmem => ?_
    have hlate : ¬observed < bumped := fun hlt => hnone _ hmem (decide_eq_true hlt)
    show (if observed < bumped then 1 else 0) ≤ 0
    rw [if_neg hlate]
  | notify i j bumped hint taken observed hi hj => exact hc.notify hi hj
  | wake i hint taken observed hi =>
    exact hc.put hi (fun _ _ _ h => nomatch h) fun _ _ _ _ => Nat.zero_le _

/-! ## Every interleaving -/

/-- The number of acquirers that are awake in their loops. -/
def awake (s : System) : ℕ := total Pc.awake s.threads

/-- The number of releases that have set their bit and have not notified. -/
def pending (s : System) : ℕ := total Pc.pending s.threads

/-- The number of acquirers that are parked. -/
def parked (s : System) : ℕ := s.threads.countP fun pc => pc matches .parked ..

/-- The slots that a pool hands out. -/
structure Slots (p : Pool) (s : System) : Prop where
  distinct : s.held.Nodup
  range : ∀ idx ∈ s.held, 0 ≤ idx ∧ idx < p.capacity
  count : (free p s).card + s.held.length = p.capacity

/-- No acquirer is parked beside a free slot that nobody sees to. -/
structure Wakes (p : Pool) (s : System) : Prop where
  /-- Beside a parked acquirer a free slot has a pending release or an awake acquirer. -/
  bound : 0 < parked s → (free p s).card ≤ pending s + awake s
  /-- So one of these has a step to take. -/
  progress : 0 < parked s → 0 < (free p s).card →
    ∃ act i pc s', act.thread = some i ∧ s.threads[i]? = some pc ∧ 0 < pc.pending + pc.awake ∧
      step p s act = some s'

/-- A release before its bump and an awake acquirer go on by themselves. -/
theorem exists_advance {pc : Pc} (hi : s.threads[i]? = some pc)
    (hpc : 0 < pc.pending + pc.awake) (hnotify : ∀ bumped, pc ≠ .notify bumped) :
    ∃ s', advance p s i false = some s' := by
  unfold advance
  rw [hi]
  cases pc with
  | scanning why scan =>
    simp only
    split
    · exact ⟨_, rfl⟩
    · exact ⟨_, rfl⟩
    · exact ⟨_, rfl⟩
  | snapshot hint => exact ⟨_, rfl⟩
  | wait hint taken =>
    simp only
    split_ifs
    · exact ⟨_, rfl⟩
    · exact ⟨_, rfl⟩
  | bump slot => exact ⟨_, rfl⟩
  | notify bumped => exact absurd rfl (hnotify bumped)
  | parked hint taken observed => cases hpc
  | returned idx => cases hpc
  | released => cases hpc

/-- A notification can be made, whoever waits. -/
theorem exists_notify {bumped : ℕ} (hi : s.threads[i]? = some (.notify bumped)) :
    ∃ woken s', notifyOne s i woken = some s' := by
  by_cases hany : s.threads.any (·.eligible bumped)
  · obtain ⟨pc, hmem, heligible⟩ := List.any_eq_true.mp hany
    obtain ⟨j, hj⟩ := List.mem_iff_getElem?.mp hmem
    cases pc with
    | parked hint taken observed =>
      refine ⟨some j, (s.put i .released).put j (.wait hint taken), ?_⟩
      unfold notifyOne
      rw [hi]
      simp only [hj, Option.any_some, heligible, ↓reduceIte]
      unfold wake
      rw [parked_put hi hj]
    | _ => cases heligible
  · refine ⟨none, s.put i .released, ?_⟩
    unfold notifyOne
    rw [hi]
    simp only [if_neg hany]

/-- A pending release and an awake acquirer can always go on. -/
theorem exists_step {pc : Pc} (hi : s.threads[i]? = some pc) (hpc : 0 < pc.pending + pc.awake) :
    ∃ act s', act.thread = some i ∧ step p s act = some s' := by
  by_cases hnotify : ∃ bumped, pc = .notify bumped
  · obtain ⟨bumped, rfl⟩ := hnotify
    obtain ⟨woken, s', hs'⟩ := exists_notify hi
    exact ⟨.notify i woken, s', rfl, hs'⟩
  · obtain ⟨s', hs'⟩ := exists_advance hi hpc fun bumped h => hnotify ⟨bumped, h⟩
    exact ⟨.advance i false, s', rfl, hs'⟩

theorem covers_le (observed : ℕ) (pc : Pc) : pc.covers observed ≤ pc.pending + pc.awake := by
  cases pc with
  | notify bumped => exact covers_notify_le observed bumped
  | scanning why scan => exact (Nat.add_comm _ _).le
  | _ => exact le_rfl

/-- What stands for the free slots is pending or awake. -/
theorem Covered.wakes (h : Covered p s) : Wakes p s := by
  have hbound : 0 < parked s → (free p s).card ≤ pending s + awake s := by
    intro hparked
    obtain ⟨pc, hmem, hpc⟩ := List.countP_pos_iff.mp hparked
    cases pc with
    | parked hint taken observed =>
      calc (free p s).card ≤ total (Pc.covers observed) s.threads := h hint taken observed hmem
        _ ≤ total (fun pc => pc.pending + pc.awake) s.threads :=
          total_le_total (covers_le observed)
        _ = pending s + awake s := total_add
    | _ => cases hpc
  refine ⟨hbound, fun hparked hfree => ?_⟩
  have hpos : 0 < total (fun pc => pc.pending + pc.awake) s.threads := by
    rw [total_add]
    exact hfree.trans_le (hbound hparked)
  obtain ⟨i, pc, hi, hpc⟩ := exists_of_total_pos hpos
  obtain ⟨act, s', hthread, hstep⟩ := exists_step hi hpc
  exact ⟨act, i, pc, s', hthread, hi, hpc, hstep⟩

/-- **The pool over every interleaving of its calls**, for indexes that fit an `int`. -/
theorem slot_pool_contract (hp : p.capacity ≤ 2 ^ 31) {acts : List Act}
    (hrun : run (step p) (initial p) acts = some s) :
    Slots p s ∧ (Meets (step p) (fun s act => timely s act) (initial p) acts → Wakes p s) := by
  constructor
  · have hs : Holding p s := run_invariant
      (fun _ _ _ hs h => (step_effect hp hs h).holding hs) (holding_initial p) hrun
    exact ⟨hs.nodup, hs.range, hs.count⟩
  · intro htimely
    have hinit : Holding p (initial p) ∧ Passing p (initial p) ∧ Covered p (initial p) := by
      refine ⟨holding_initial p, ⟨?_, ?_⟩, ?_⟩
      · exact fun _ h => nomatch h
      · exact fun _ h => nomatch h
      · exact fun _ _ _ h => nomatch h
    have hstep : ∀ s act s', Holding p s ∧ Passing p s ∧ Covered p s → timely s act →
        step p s act = some s' → Holding p s' ∧ Passing p s' ∧ Covered p s' := by
      rintro s act s' ⟨hh, hs, hc⟩ htimely h
      have heffect := step_effect hp hh h
      exact ⟨heffect.holding hh, heffect.passing hh hs, heffect.covered hh hs hc htimely⟩
    exact (htimely.run_invariant hstep hinit hrun).2.2.wakes

def onePool : Pool := ⟨1, le_rfl⟩

/-- One slot and two acquirers: the second parks, the release of the first wakes it. -/
def shownActs : List Act :=
  [.acquire 0, .advance 0 false, .advance 0 false, .acquire 7, .advance 1 false, .advance 1 false,
    .advance 1 false, .advance 1 false, .release 0, .advance 2 false]

theorem shownActs_run : (run (step onePool) (initial onePool) shownActs).map
    (fun s => (s.held, parked s, pending s)) = some ([], 1, 1) := by
  decide +kernel

theorem shownActs_timely :
    Meets (step onePool) (fun s act => timely s act) (initial onePool) shownActs := by
  decide +kernel

theorem slot_pool_contract_shownActs :
    ∃ s, run (step onePool) (initial onePool) shownActs = some s ∧ Slots onePool s ∧
      Wakes onePool s ∧ parked s = 1 ∧ pending s = 1 := by
  obtain ⟨s, hs, heq⟩ := Option.map_eq_some_iff.mp shownActs_run
  obtain ⟨hslots, hwakes⟩ := slot_pool_contract (p := onePool) (by decide) hs
  exact ⟨s, hs, hslots, hwakes shownActs_timely, congrArg (·.2.1) heq, congrArg (·.2.2) heq⟩

def widePool : Pool := ⟨2 ^ 31 + 1, by decide⟩

/-- The last slot is asked for. -/
def wideActs : List Act := [.tryAcquire (2 ^ 25), .advance 0 false, .advance 0 false]

theorem wideActs_run : (run (step widePool) (initial widePool) wideActs).map System.held
    = some [-2 ^ 31] := by
  decide +kernel

/-- The words of `onePool` with its slot free. -/
def oneFree : Words := Bitmap.insert (fun _ => 0) 0

/-- The only slot is given back. -/
theorem give_run {n : ℕ} {l : List Pc} (hl : ∀ pc ∈ l, ¬pc.eligible (n + 1)) :
    run (step onePool) ⟨fun _ => 0, n, [0], l⟩
      [.release 0, .advance l.length false, .notify l.length none]
      = some ⟨oneFree, n + 1, [], l ++ [Pc.released]⟩ := by
  have hnone : ∀ pc ∈ l, pc.eligible (n + 1) = false := fun pc hpc =>
    Bool.eq_false_iff.mpr (hl pc hpc)
  have hself : (Pc.notify (n + 1)).eligible (n + 1) = false := rfl
  simp [step, advance, System.spawn, System.put, notifyOne, onePool, hself, oneFree]
  exact hnone

theorem oneFree_load :
    (onePool.scan 0#32).advance onePool oneFree false = (oneFree, .scanning ⟨0, 0, some 1#64⟩) :=
  rfl

theorem oneFree_exchange :
    (Scan.mk 0 0 (some 1#64)).advance onePool oneFree false = (fun _ => 0#64, .acquired 0) := by
  have hctz : (1#64).ctz.toNat = 0 := by decide +kernel
  have htaken : Function.update oneFree 0 (1#64 &&& ~~~bit 0) = fun _ => 0#64 := by
    funext w
    by_cases hw : w = 0
    · subst hw
      rw [Function.update_self]
      decide
    · rw [Function.update_of_ne hw, oneFree, Bitmap.insert, Function.update_of_ne hw]
      rfl
  have hword : (Scan.mk 0 0 (some 1#64)).word onePool = 0 := rfl
  have hbits : oneFree 0 = 1#64 := rfl
  unfold Scan.advance
  simp only [hword, hbits, hctz, htaken, and_self, ↓reduceIte]
  exact Prod.ext rfl rfl

/-- The only slot is taken. -/
theorem take_run {n : ℕ} {l : List Pc} :
    run (step onePool) ⟨oneFree, n, [], l⟩
      [.tryAcquire 0, .advance l.length false, .advance l.length false]
      = some ⟨fun _ => 0, n, [0], l ++ [Pc.returned 0]⟩ := by
  simp [step, advance, System.spawn, System.put, oneFree_load, oneFree_exchange]

/-- The slot was taken and an acquirer is about to wait. -/
def overtaken : List Pc := [.returned 0, .wait 0 0]

/-- An acquirer is about to wait beside `turns` calls of each kind that are over. -/
structure Turned (turns : ℕ) (s : System) (rest : List Pc) : Prop where
  state : s = ⟨fun _ => 0, turns, [0], overtaken ++ rest⟩
  length : rest.length = 2 * turns
  ended : ∀ pc ∈ rest, pc = .released ∨ pc = .returned 0

theorem Turned.eligible {turns : ℕ} {rest : List Pc} (h : Turned turns s rest) (bumped : ℕ) :
    ∀ pc ∈ overtaken ++ rest, ¬pc.eligible bumped := by
  intro pc hpc
  rcases List.mem_append.mp hpc with hpc | hpc
  · simp only [overtaken, List.mem_cons, List.not_mem_nil, or_false] at hpc
    rcases hpc with rfl | rfl <;> exact Bool.false_ne_true
  · rcases h.ended pc hpc with rfl | rfl <;> exact Bool.false_ne_true

theorem turned_zero : ∃ acts s, run (step onePool) (initial onePool) acts = some s ∧
    Turned 0 s [] := by
  have hinit : initial onePool = ⟨oneFree, 0, [], []⟩ := by
    unfold initial
    congr 1
    funext w
    by_cases hw : w = 0
    · subst hw
      decide
    · rw [if_neg (fun h => hw (by simpa [onePool, Pool.numWords] using h)), oneFree, Bitmap.insert,
        Function.update_of_ne hw]
  refine ⟨[Act.tryAcquire 0, .advance 0 false, .advance 0 false] ++
    [Act.acquire 0, .advance 1 false, .advance 1 false, .advance 1 false],
    ⟨fun _ => 0, 0, [0], overtaken⟩, ?_, ⟨rfl, rfl, fun _ h => nomatch h⟩⟩
  rw [hinit]
  exact run_trans (take_run (n := 0) (l := [])) rfl

/-- The slot is given back and taken again, with `k` calls before. -/
def turnActs (k : ℕ) : List Act :=
  [Act.release 0, .advance k false, .notify k none] ++
    [Act.tryAcquire 0, .advance (k + 1) false, .advance (k + 1) false]

theorem Turned.turn {turns : ℕ} {rest : List Pc} (h : Turned turns s rest) :
    ∃ s', run (step onePool) s (turnActs (2 + 2 * turns)) = some s' ∧
      Turned (turns + 1) s' (rest ++ [Pc.released, .returned 0]) := by
  have hlength : 2 + 2 * turns = (overtaken ++ rest).length := by
    rw [List.length_append, h.length]
    rfl
  refine ⟨⟨fun _ => 0, turns + 1, [0], _⟩, ?_, rfl, ?_, ?_⟩
  · rw [h.state, turnActs, hlength]
    refine run_trans (give_run (h.eligible (turns + 1))) ?_
    have htake := take_run (n := turns + 1) (l := overtaken ++ rest ++ [Pc.released])
    rw [List.length_append, List.length_singleton] at htake
    rw [htake, List.append_assoc, List.append_assoc]
    rfl
  · rw [List.length_append, h.length]
    rfl
  · intro pc hpc
    rcases List.mem_append.mp hpc with hpc | hpc
    · exact h.ended pc hpc
    · simpa using hpc

theorem exists_turned (turns : ℕ) : ∃ acts s rest,
    run (step onePool) (initial onePool) acts = some s ∧ Turned turns s rest := by
  induction turns with
  | zero =>
    obtain ⟨acts, s, hrun, hturned⟩ := turned_zero
    exact ⟨acts, s, [], hrun, hturned⟩
  | succ turns ih =>
    obtain ⟨acts, s, rest, hrun, hturned⟩ := ih
    obtain ⟨s', hrun', hturned'⟩ := hturned.turn
    exact ⟨_, s', _, run_trans hrun hrun', hturned'⟩

/-- The acquirer parked beside the free slot. -/
def besideFree (turns : ℕ) (rest : List Pc) : System :=
  ⟨oneFree, turns + 1, [], [Pc.returned 0, .parked 0 0 (turns + 1)] ++ rest ++ [Pc.released]⟩

/-- A whole turn of the counter later the acquirer parks beside the free slot. -/
theorem Turned.park {turns : ℕ} {rest : List Pc} (h : Turned turns s rest)
    (hseq : releaseSeq (turns + 1) = releaseSeq 0) :
    ∃ acts s', run (step onePool) s acts = some s' ∧ ¬Wakes onePool s' := by
  have hgive := give_run (h.eligible (turns + 1))
  rw [← h.state] at hgive
  have hpark : run (step onePool) ⟨oneFree, turns + 1, [], overtaken ++ rest ++ [Pc.released]⟩
      [.advance 1 false] = some (besideFree turns rest) := by
    simp [besideFree, step, advance, overtaken, System.put, hseq]
  refine ⟨_, besideFree turns rest, run_trans hgive hpark, fun hwakes => ?_⟩
  have hzero : ∀ pc ∈ rest, pc.pending = 0 ∧ pc.awake = 0 := by
    intro pc hpc
    rcases h.ended pc hpc with rfl | rfl <;> exact ⟨rfl, rfl⟩
  have hpending : pending (besideFree turns rest) = 0 := by
    simp [pending, besideFree, Pc.pending, total_eq_zero fun pc hpc => (hzero pc hpc).1]
  have hawake : awake (besideFree turns rest) = 0 := by
    simp [awake, besideFree, Pc.awake, total_eq_zero fun pc hpc => (hzero pc hpc).2]
  have hslot : 0 ∈ free onePool (besideFree turns rest) :=
    Finset.mem_filter.mpr ⟨by decide, show member oneFree 0 by decide⟩
  have hbound := hwakes.bound (by simp [parked, besideFree])
  have hpos := Finset.card_pos.mpr ⟨0, hslot⟩
  omega

/-- An index beyond the `int`s is handed out as a negative one, and an acquirer that `2 ^ 64` bumps
    overtake parks beside a free slot. -/
theorem slot_pool_overruns :
    (∃ s, run (step widePool) (initial widePool) wideActs = some s ∧ ¬Slots widePool s) ∧
    ∃ acts s, run (step onePool) (initial onePool) acts = some s ∧ ¬Wakes onePool s := by
  constructor
  · obtain ⟨s, hs, hheld⟩ := Option.map_eq_some_iff.mp wideActs_run
    refine ⟨s, hs, fun hslots => ?_⟩
    have hrange := hslots.range (-2 ^ 31) (by rw [hheld]; exact List.mem_singleton_self _)
    omega
  · obtain ⟨acts, s, rest, hrun, hturned⟩ := exists_turned (2 ^ 64 - 1)
    obtain ⟨acts', s', hrun', hwakes⟩ := hturned.park (by decide)
    exact ⟨_, s', run_trans hrun hrun', hwakes⟩

end Sirius.Io.SlotPool
