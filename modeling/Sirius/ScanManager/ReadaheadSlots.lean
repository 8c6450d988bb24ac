import Sirius.ScanManager.Readahead

/-!
# The slots of the readahead

Who holds a slot of the gatekeeper. `SlotBook` is the part of the manager that
slots depend on, with the slots that are in somebody's hands; the lemmas of
`Balanced` are the moves of a slot between the hand of the worker, a prefetch that
is under way, a demand ticket and the gatekeeper.

* `Balanced.slots`: every slot handed out is held once or was released once.
* `step_balanced`, `step_disposal`, `step_counted`: what one step preserves.
* `slots_accounted`: what holds in every run.
-/

namespace Sirius.ScanManager

open Sirius.Common

/-- The book of the slots. `granted` is the budget once the gatekeeper is armed. -/
structure SlotBook where
  available : ℤ
  granted : ℤ
  nextSlot : ℕ
  released : List ℕ
  tickets : Table ℕ ScanTicket
  nextTicket : ℕ
  inFlight : Table ℕ Pending
  workerTicket : Option (ℕ × Pending)
  hand : List ℕ

namespace SlotBook

/-- The sum of `g` over the slots of the demand tickets. -/
def demandWeight (g : ℕ → ℕ) (tickets : Table ℕ ScanTicket) : ℕ :=
  Table.total (fun _ t => if t.owner = .demand then g t.slot else 0) tickets

/-- The sum of `g` over the slots that are held. -/
def weight (b : SlotBook) (g : ℕ → ℕ) : ℕ :=
  (b.hand.map g).sum + Table.total (fun _ p => g p.slot) b.inFlight + demandWeight g b.tickets

/-- The ticket `id` is published and not settled. -/
def Pends (b : SlotBook) (id : ℕ) (p : Pending) : Prop :=
  b.inFlight.lookup id = some p ∨ b.workerTicket = some (id, p)

/-- The slots handed out are those held and those released, and the count of the
    gatekeeper agrees. The map shows an unsettled ticket as `prefetching`. -/
structure Balanced (b : SlotBook) : Prop where
  slots : ∀ g : ℕ → ℕ, b.weight g + (b.released.map g).sum = ((List.range b.nextSlot).map g).sum
  count : b.available + b.nextSlot = b.granted + b.released.length
  pending : ∀ id p, b.Pends id p → id < b.nextTicket ∧ ∀ t, b.tickets.lookup p.split = some t →
    t.id = id → t.owner = .prefetching ∧ t.slot = p.slot
  apart : ∀ id p, b.workerTicket = some (id, p) → b.inFlight.lookup id = none
  ids : ∀ split t, b.tickets.lookup split = some t → t.id < b.nextTicket

variable {b : SlotBook}

/-! ## The moves -/

/-- A slot leaves the gatekeeper. -/
theorem Balanced.take (h : b.Balanced) :
    { b with
      available := b.available - 1
      nextSlot := b.nextSlot + 1
      hand := b.nextSlot :: b.hand }.Balanced := by
  refine ⟨fun g => ?_, ?_, h.pending, h.apart, h.ids⟩
  · have := h.slots g
    simp only [weight, List.range_succ, List.map_append, List.sum_append, List.map_cons,
      List.sum_cons, List.map_nil, List.sum_nil] at this ⊢
    omega
  · have := h.count
    push_cast
    omega

variable {slot split : ℕ}

/-- A slot goes back. -/
theorem Balanced.release {rest : List ℕ} (h : b.Balanced) (hhand : b.hand = slot :: rest) :
    { b with
      available := b.available + 1
      released := slot :: b.released
      hand := rest }.Balanced := by
  refine ⟨fun g => ?_, ?_, h.pending, h.apart, h.ids⟩
  · have := h.slots g
    simp only [weight, hhand, List.map_cons, List.sum_cons] at this ⊢
    omega
  · have := h.count
    simp only [List.length_cons]
    push_cast
    omega

/-- The gatekeeper is armed. -/
theorem Balanced.arm {budget : ℤ} (h : b.Balanced) (hgranted : b.granted = 0) :
    { b with available := b.available + budget, granted := budget }.Balanced := by
  refine ⟨h.slots, ?_, h.pending, h.apart, h.ids⟩
  have := h.count
  dsimp only
  omega

/-- A new ticket is published by the worker, which keeps the slot. -/
theorem Balanced.publish {t : ScanTicket} (h : b.Balanced) (hnew : b.tickets.lookup split = none)
    (hid : t.id = b.nextTicket) (howner : t.owner = .prefetching) (hslot : t.slot = slot) :
    { b with
      tickets := b.tickets.insert split t
      nextTicket := b.nextTicket + 1
      workerTicket := some (b.nextTicket, { split := split, slot := slot }) }.Balanced := by
  have hfresh : ∀ id p, b.inFlight.lookup id = some p → id < b.nextTicket :=
    fun id p hp => (h.pending id p (.inl hp)).1
  refine ⟨fun g => ?_, h.count, fun id p hp => ?_, fun id p hp => ?_,
    Table.forall_lookup_insert (hid ▸ Nat.lt_succ_self _)
      fun s t' ht => Nat.lt_succ_of_lt (h.ids s t' ht)⟩
  · have := h.slots g
    simp only [weight, demandWeight, Table.total_insert_new hnew, howner] at this ⊢
    simpa using this
  · rcases hp with hp | hp
    · refine ⟨Nat.lt_succ_of_lt (hfresh id p hp), fun t' ht' hid' => ?_⟩
      rcases Table.lookup_insert_cases ht' with ⟨rfl, rfl⟩ | ⟨-, ht0⟩
      · exact absurd (hfresh id p hp) (by omega)
      · exact (h.pending id p (.inl hp)).2 t' ht0 hid'
    · cases hp
      refine ⟨Nat.lt_succ_self _, fun t' ht' _ => ?_⟩
      dsimp only at ht'
      rw [Table.lookup_insert_eq, if_pos rfl] at ht'
      cases ht'
      exact ⟨howner, hslot⟩
  · cases hp
    cases hl : b.inFlight.lookup b.nextTicket with
    | none => rfl
    | some p => exact absurd (hfresh _ p hl) (lt_irrefl _)

/-- The prefetch is issued, and takes the slot out of the hand. -/
theorem Balanced.issue {id : ℕ} {p : Pending} {rest : List ℕ} (h : b.Balanced)
    (hticket : b.workerTicket = some (id, p)) (hhand : b.hand = p.slot :: rest) :
    { b with
      inFlight := b.inFlight.insert id p
      workerTicket := none
      hand := rest }.Balanced := by
  have hnew := h.apart id p hticket
  refine ⟨fun g => ?_, h.count, fun id' p' hp => ?_, fun id' p' hp => (by cases hp), h.ids⟩
  · have := h.slots g
    simp only [weight, hhand, List.map_cons, List.sum_cons, Table.total_insert_new hnew] at this ⊢
    omega
  · rcases hp with hp | hp
    · rcases Table.lookup_insert_cases hp with ⟨rfl, rfl⟩ | ⟨-, hp0⟩
      · exact h.pending id' p' (.inr hticket)
      · exact h.pending id' p' (.inl hp0)
    · cases hp

/-- The worker is about to settle its ticket. -/
theorem Balanced.endAttempt (h : b.Balanced) : { b with workerTicket := none }.Balanced := by
  refine ⟨h.slots, h.count, fun id p hp => ?_, fun id p hp => (by cases hp), h.ids⟩
  rcases hp with hp | hp
  · exact h.pending id p (.inl hp)
  · cases hp

/-- A completion is about to settle its ticket, with the slot in its hand. -/
theorem Balanced.endFlight {id : ℕ} {p : Pending} (h : b.Balanced)
    (hflight : b.inFlight.lookup id = some p) :
    { b with inFlight := b.inFlight.erase id, hand := p.slot :: b.hand }.Balanced := by
  refine ⟨fun g => ?_, h.count, fun id' p' hp => ?_, fun id' p' hp => ?_, h.ids⟩
  · have := h.slots g
    simp only [weight, Table.total_of_lookup hflight, List.map_cons, List.sum_cons] at this ⊢
    omega
  · rcases hp with hp | hp
    · exact h.pending id' p' (.inl (Table.lookup_of_erase hp).2)
    · exact h.pending id' p' (.inr hp)
  · dsimp only
    rw [Table.lookup_erase_eq, h.apart id' p' hp, ite_self]

/-- A new demand ticket, with a slot from the hand. -/
theorem Balanced.demand {rest : List ℕ} {t : ScanTicket} (h : b.Balanced)
    (hhand : b.hand = slot :: rest) (hnew : b.tickets.lookup split = none)
    (hid : t.id = b.nextTicket) (howner : t.owner = .demand) (hslot : t.slot = slot) :
    { b with
      tickets := b.tickets.insert split t
      nextTicket := b.nextTicket + 1
      hand := rest }.Balanced := by
  refine ⟨fun g => ?_, h.count, fun id p hp => ?_, h.apart,
    Table.forall_lookup_insert (hid ▸ Nat.lt_succ_self _)
      fun s t' ht => Nat.lt_succ_of_lt (h.ids s t' ht)⟩
  · have := h.slots g
    simp only [weight, demandWeight, Table.total_insert_new hnew, howner, hhand, List.map_cons,
      List.sum_cons, hslot, if_true] at this ⊢
    omega
  · have hold := h.pending id p hp
    refine ⟨Nat.lt_succ_of_lt hold.1, fun t' ht' hid' => ?_⟩
    rcases Table.lookup_insert_cases ht' with ⟨rfl, rfl⟩ | ⟨-, ht0⟩
    · exact absurd hold.1 (by omega)
    · exact hold.2 t' ht0 hid'

/-- A ticket changes. It keeps its identity, and its owner unless it is settled. -/
theorem Balanced.change {t t' : ScanTicket} (h : b.Balanced) (hand : List ℕ)
    (hold : b.tickets.lookup split = some t) (hid : t'.id = t.id)
    (howner : (t'.owner = t.owner ∧ t'.slot = t.slot) ∨ ∀ p, ¬b.Pends t.id p)
    (hslots : ∀ g : ℕ → ℕ, (hand.map g).sum + (if t'.owner = .demand then g t'.slot else 0) =
      (b.hand.map g).sum + if t.owner = .demand then g t.slot else 0) :
    { b with tickets := b.tickets.insert split t', hand := hand }.Balanced := by
  refine ⟨fun g => ?_, h.count, fun id p hp => ?_, h.apart,
    Table.forall_lookup_insert (hid ▸ h.ids _ t hold) h.ids⟩
  · have hsum := h.slots g
    have hchange := hslots g
    have htotal := Table.total_insert_old
      (f := fun _ t => if t.owner = Phase.demand then g t.slot else 0) (v := t') hold
    simp only [weight, demandWeight] at hsum ⊢
    omega
  · refine ⟨(h.pending id p hp).1, fun u hu huid => ?_⟩
    rcases Table.lookup_insert_cases hu with ⟨rfl, rfl⟩ | ⟨-, hu0⟩
    · rcases howner with ⟨howner, hslot⟩ | hnone
      · rw [howner, hslot]
        exact (h.pending id p hp).2 t hold (hid ▸ huid)
      · rw [hid] at huid
        exact absurd hp (huid ▸ hnone p)
    · exact (h.pending id p hp).2 u hu0 huid

/-- A ticket leaves the map, and the slot of a demand ticket goes to the hand. -/
theorem Balanced.erase {t : ScanTicket} (h : b.Balanced) (hand : List ℕ)
    (hold : b.tickets.lookup split = some t)
    (hslots : ∀ g : ℕ → ℕ, (hand.map g).sum =
      (b.hand.map g).sum + if t.owner = .demand then g t.slot else 0) :
    { b with tickets := b.tickets.erase split, hand := hand }.Balanced := by
  refine ⟨fun g => ?_, h.count, fun id p hp => ?_, h.apart,
    fun s u hu => h.ids s u (Table.lookup_of_erase hu).2⟩
  · have hsum := h.slots g
    simp only [weight, demandWeight, Table.total_of_lookup hold] at hsum ⊢
    rw [hslots g]
    omega
  · exact ⟨(h.pending id p hp).1,
      fun u hu => (h.pending id p hp).2 u (Table.lookup_of_erase hu).2⟩

end SlotBook

namespace Readahead

open SlotBook

/-- The book of the manager, with a ticket and slots in somebody's hand. -/
def bookWith (s : Readahead) (ticket : Option (ℕ × Pending)) (hand : List ℕ) : SlotBook where
  available := s.gatekeeper.available
  granted := if s.prefetchingStarted then s.gatekeeper.budget else 0
  nextSlot := s.nextSlot
  released := s.released
  tickets := s.tickets
  nextTicket := s.nextTicket
  inFlight := s.inFlight
  workerTicket := ticket
  hand := hand

/-- The book of the manager. -/
def book (s : Readahead) : SlotBook := s.bookWith s.worker.ticket s.worker.slot.toList

variable {s s' : Readahead}

variable {id split : ℕ} {p : Pending}

/-- `settle_prefetch` takes the slot out of the hand, into a demand ticket or back. -/
theorem settlePrefetch_balanced {covered : Bool}
    {ticket : Option (ℕ × Pending)} {rest : List ℕ}
    (h : (s.bookWith ticket (p.slot :: rest)).Balanced)
    (hnone : ∀ p', ¬(s.bookWith ticket (p.slot :: rest)).Pends id p')
    (hentry : ∀ t, s.tickets.lookup p.split = some t → t.id = id →
      t.owner = .prefetching ∧ t.slot = p.slot) :
    ((s.settlePrefetch id p covered).bookWith ticket rest).Balanced := by
  unfold settlePrefetch
  cases hfilter : (s.tickets.lookup p.split).filter fun t => t.id = id with
  | none => exact h.release rfl
  | some t =>
    obtain ⟨hlookup, hid⟩ := Option.filter_eq_some_iff.mp hfilter
    rw [decide_eq_true_iff] at hid
    obtain ⟨howner, hslot⟩ := hentry t hlookup hid
    have hgone : ∀ p', ¬(s.bookWith ticket rest).Pends t.id p' := hid ▸ hnone
    have hback : ((s.giveBack p.slot).bookWith ticket rest).Balanced := h.release rfl
    dsimp only
    split_ifs
    · refine h.change rest hlookup rfl (.inr (hid ▸ hnone)) fun g => ?_
      simp only [bookWith, List.map_cons, List.sum_cons, howner, hslot, if_true, reduceCtorEq,
        if_false]
      omega
    · refine hback.change rest hlookup rfl (.inr hgone) fun g => ?_
      simp only [bookWith, howner, reduceCtorEq, if_false]
    · refine hback.erase rest hlookup fun g => ?_
      simp only [bookWith, howner, reduceCtorEq, if_false, Nat.add_zero]

theorem complete_balanced {out : PrefetchOutcome} (h : s.book.Balanced)
    (hflight : s.inFlight.lookup id = some p) : (s.complete id p out).book.Balanced := by
  have hend := h.endFlight hflight
  have hworker : (s.complete id p out).worker = s.worker := by
    unfold complete settlePrefetch
    dsimp only
    split
    · rfl
    · split_ifs <;> rfl
  unfold book
  rw [hworker]
  refine settlePrefetch_balanced hend (fun p' hp => ?_)
    fun t ht htid => (h.pending id p (.inl hflight)).2 t ht htid
  rcases hp with hp | hp
  · change (s.inFlight.erase id).lookup id = some p' at hp
    rw [AList.lookup_erase] at hp
    cases hp
  · have hapart : s.inFlight.lookup id = none := h.apart id p' hp
    rw [hflight] at hapart
    cases hapart

theorem startDemand_balanced (h : s.book.Balanced)
    (hnew : s.tickets.lookup split = none) : (s.startDemand split).book.Balanced := by
  let t : ScanTicket :=
    { id := s.nextTicket, owner := .demand, demandStarted := true, slot := s.nextSlot }
  exact h.take.demand (t := t) rfl hnew rfl rfl rfl

theorem reportReading_balanced {throws : Bool} (h : s.book.Balanced) :
    (s.reportReading split throws).book.Balanced := by
  unfold reportReading
  by_cases hbudget : s.budget = 0
  · rw [if_pos hbudget]
    exact h
  by_cases hstage : s.stage split = .disposed
  · rw [if_neg hbudget, if_pos hstage]
    exact h
  rw [if_neg hbudget, if_neg hstage]
  cases hl : s.tickets.lookup split with
  | some t => exact h.change s.book.hand hl rfl (.inl ⟨rfl, rfl⟩) fun g => rfl
  | none =>
    cases throws with
    | true => exact h
    | false => exact startDemand_balanced h hl

theorem reportDisposed_balanced (h : s.book.Balanced) : (s.reportDisposed split).book.Balanced := by
  unfold reportDisposed
  dsimp only
  split_ifs with hbudget
  · exact h
  cases hl : s.tickets.lookup split with
  | none => exact h
  | some t =>
    dsimp only
    split_ifs with howner
    · have herase := h.erase (t.slot :: s.book.hand) hl fun g => by
        simp only [List.map_cons, List.sum_cons, howner, if_true]
        omega
      exact herase.release rfl
    · exact h.erase s.book.hand hl fun g => by simp [howner]

/-- Only what the worker holds matters for the book. -/
theorem book_of_worker {w : Worker} (hw : s.worker = w) :
    s.book = s.bookWith w.ticket w.slot.toList := by
  subst hw
  rfl

theorem exit_balanced (h : (s.bookWith none []).Balanced) : s.exit.book.Balanced := by
  unfold exit
  cases s.retry with
  | none => exact h
  | some split => exact h

theorem poll_balanced {slot : ℕ} (hw : s.worker = .polling slot) (h : s.book.Balanced) :
    (s.poll slot).book.Balanced := by
  have hsame := h
  rw [book_of_worker hw] at h
  have hback : ((s.giveBack slot).bookWith none []).Balanced := h.release rfl
  unfold poll
  split_ifs with hstop
  · exact hback
  cases s.queues[s.cursor]? with
  | none => exact hback
  | some q =>
    dsimp only
    cases (s.nextCandidate q.queue s.counters).2.1 with
    | some split => exact h
    | none =>
      dsimp only
      split_ifs
      · exact hsame
      · exact hback

variable {slot : Option ℕ}

theorem releaseHeld_balanced (h : (s.bookWith none slot.toList).Balanced) :
    ((s.releaseHeld slot).bookWith none []).Balanced := by
  cases slot with
  | none => exact h
  | some slot => exact h.release rfl

variable {delayed pressure : Bool}

theorem finishRound_balanced (h : (s.bookWith none slot.toList).Balanced) :
    (s.finishRound slot split delayed pressure).book.Balanced := by
  have hback := releaseHeld_balanced h
  unfold finishRound
  split_ifs <;> exact hback

theorem abandoned_balanced (h : (s.bookWith (some (id, p)) [p.slot]).Balanced) :
    ({ s.settlePrefetch id p false with
      worker := .returned none p.split delayed pressure } : Readahead).book.Balanced := by
  have hnone : ∀ p', ¬(s.bookWith none [p.slot]).Pends id p' := by
    rintro p' (hp | hp)
    · have hapart : s.inFlight.lookup id = none := h.apart id p rfl
      have hp : s.inFlight.lookup id = some p' := hp
      rw [hapart] at hp
      cases hp
    · cases hp
  exact settlePrefetch_balanced h.endAttempt hnone
    fun t ht htid => (h.pending id p (.inr rfl)).2 t ht htid

theorem workerStep_balanced {answer : Answer} (hstep : s.workerStep answer = some s')
    (h : s.book.Balanced) : s'.book.Balanced := by
  unfold workerStep at hstep
  cases hw : s.worker with
  | notStarted => simp [hw] at hstep
  | stopped => simp [hw] at hstep
  | idle =>
    rw [book_of_worker hw] at h
    simp only [hw] at hstep
    split_ifs at hstep <;> cases hstep
    · exact exit_balanced h
    · exact h
  | gate =>
    rw [book_of_worker hw] at h
    simp only [hw] at hstep
    unfold Gatekeeper.acquireFor at hstep
    split_ifs at hstep <;> cases hstep
    · exact h
    · exact h.take
    · exact h
  | acquired slot =>
    rw [book_of_worker hw] at h
    simp only [hw] at hstep
    split_ifs at hstep
    · cases hstep
      exact exit_balanced (h.release rfl)
    · cases hr : s.retry <;> simp only [hr] at hstep <;> cases hstep
      · exact h
      · exact h
  | polling slot =>
    simp only [hw, Option.some.injEq] at hstep
    exact hstep ▸ poll_balanced hw h
  | chosen _ _ _ | sharing _ _ _ =>
    rw [book_of_worker hw] at h
    simp only [hw] at hstep
    split_ifs at hstep <;> cases hstep <;> exact h
  | publishing slot split delayed =>
    rw [book_of_worker hw] at h
    simp only [hw] at hstep
    split_ifs at hstep with hthrows hbehind <;> cases hstep
    · exact h
    · exact h
    · have hnew : s.tickets.lookup split = none := by
        push Not at hbehind
        simpa using hbehind.2
      let t : ScanTicket :=
        { id := s.nextTicket, owner := .prefetching, demandStarted := false, slot := slot }
      exact h.publish (t := t) hnew rfl rfl rfl
  | attempting id p delayed evict =>
    rw [book_of_worker hw] at h
    simp only [hw] at hstep
    split_ifs at hstep <;> cases hstep <;> exact h
  | preparing id p delayed evict =>
    rw [book_of_worker hw] at h
    simp only [hw] at hstep
    unfold afterPrepare at hstep
    split_ifs at hstep <;> cases hstep <;> exact h
  | prepared id p delayed =>
    rw [book_of_worker hw] at h
    simp only [hw] at hstep
    split_ifs at hstep <;> cases hstep
    · exact h
    · exact h.issue rfl rfl
  | abandoned id p delayed pressure =>
    rw [book_of_worker hw] at h
    simp only [hw, Option.some.injEq] at hstep
    exact hstep ▸ abandoned_balanced h
  | returned slot split delayed pressure =>
    rw [book_of_worker hw] at h
    simp only [hw, Option.some.injEq] at hstep
    exact hstep ▸ finishRound_balanced h

theorem step_balanced {a : Action} (hstep : s.step a = some s') (h : s.book.Balanced) :
    s'.book.Balanced := by
  cases a with
  | start =>
    simp only [step] at hstep
    split_ifs at hstep with hguard
    cases hstep
    push Not at hguard
    rw [book_of_worker hguard.2.1] at h
    exact h
  | arm =>
    simp only [step, Option.some.injEq] at hstep
    subst hstep
    unfold armPrefetching
    split_ifs with hstarted
    · exact h
    · exact h.arm (by simp [book, bookWith, hstarted])
  | requestStop => cases hstep; exact h
  | stopGate => cases hstep; exact h
  | register op split =>
    simp only [step] at hstep
    cases hq : s.queues[op]? with
    | none => simp [hq] at hstep
    | some q =>
      simp only [hq] at hstep
      split_ifs at hstep <;> cases hstep <;> exact h
  | close op =>
    simp only [step] at hstep
    cases hq : s.queues[op]? with
    | none => simp [hq] at hstep
    | some q =>
      simp only [hq, Option.some.injEq] at hstep
      exact hstep ▸ h
  | publishStage split stage =>
    simp only [step] at hstep
    split_ifs at hstep <;> cases hstep <;> exact h
  | expire split =>
    simp only [step] at hstep
    split_ifs at hstep
    cases hstep
    exact h
  | reading split throws =>
    simp only [step] at hstep
    split_ifs at hstep
    cases hstep
    exact reportReading_balanced h
  | dispose split =>
    simp only [step] at hstep
    split_ifs at hstep
    cases hstep
    exact reportDisposed_balanced h
  | work answer => exact workerStep_balanced hstep h
  | complete id out =>
    obtain ⟨p, hp, rfl⟩ := Option.map_eq_some_iff.mp hstep
    exact complete_balanced h hp
  | recordOutcome i =>
    obtain ⟨c, -, rfl⟩ := Option.map_eq_some_iff.mp hstep
    exact h

theorem fresh_balanced (budget operators : ℕ) : (fresh budget operators).book.Balanced := by
  refine ⟨fun g => rfl, rfl, fun id p hp => ?_, fun id p hp => (by cases hp),
    fun split t ht => (by cases ht)⟩
  rcases hp with hp | hp <;> cases hp

/-! ## Disposed splits -/

/-- The budget is as it was configured, and a split that was disposed has no ticket
    any more, and gets none. -/
structure Disposal (budget : ℕ) (s : Readahead) : Prop where
  positive : 0 < budget
  configured : s.budget = budget ∧ s.gatekeeper.budget = toInt budget
  gone : ∀ split ∈ s.disposed, s.stage split = .disposed ∧ s.tickets.lookup split = none
  known : ∀ split t, s.tickets.lookup split = some t → split ∈ s.ticketed

variable {budget : ℕ}

/-- The budgets are as they were. -/
def SameBudget (s s' : Readahead) : Prop :=
  s'.budget = s.budget ∧ s'.gatekeeper.budget = s.gatekeeper.budget

/-- No split gets a ticket. -/
theorem Disposal.keep (h : s.Disposal budget) (hbudget : SameBudget s s')
    (hstage : s'.stage = s.stage) (hdisposed : s'.disposed = s.disposed)
    (hticketed : s'.ticketed = s.ticketed)
    (htickets : ∀ split t, s'.tickets.lookup split = some t →
      ∃ t', s.tickets.lookup split = some t') :
    s'.Disposal budget := by
  refine ⟨h.positive, hbudget.1 ▸ hbudget.2 ▸ h.configured, fun split hsplit => ?_,
    fun split t ht => ?_⟩
  · obtain ⟨hstage', hnone⟩ := h.gone split (hdisposed ▸ hsplit)
    refine ⟨hstage ▸ hstage', ?_⟩
    cases hl : s'.tickets.lookup split with
    | none => rfl
    | some t =>
      obtain ⟨t', ht'⟩ := htickets split t hl
      rw [hnone] at ht'
      cases ht'
  · obtain ⟨t', ht'⟩ := htickets split t ht
    rw [hticketed]
    exact h.known split t' ht'

/-- A split that is not disposed gets a ticket. -/
theorem Disposal.insert {t : ScanTicket} (h : s.Disposal budget)
    (hlive : s.stage split ≠ .disposed) (hbudget : SameBudget s s') (hstage : s'.stage = s.stage)
    (hdisposed : s'.disposed = s.disposed) (hticketed : s'.ticketed = split :: s.ticketed)
    (htickets : s'.tickets = s.tickets.insert split t) : s'.Disposal budget := by
  refine ⟨h.positive, hbudget.1 ▸ hbudget.2 ▸ h.configured, fun split' hsplit => ?_,
    fun split' t' ht => ?_⟩
  · obtain ⟨hstage', hnone⟩ := h.gone split' (hdisposed ▸ hsplit)
    have hne : split' ≠ split := by
      rintro rfl
      exact hlive hstage'
    exact ⟨hstage ▸ hstage', by rw [htickets, Table.lookup_insert_eq, if_neg hne, hnone]⟩
  · rw [htickets, Table.lookup_insert_eq] at ht
    rw [hticketed]
    split_ifs at ht with hsplit
    · exact hsplit ▸ List.mem_cons_self
    · exact List.mem_cons_of_mem _ (h.known split' t' ht)

theorem settlePrefetch_disposal {covered : Bool} (h : s.Disposal budget) :
    (s.settlePrefetch id p covered).Disposal budget := by
  unfold settlePrefetch
  cases hfilter : (s.tickets.lookup p.split).filter fun t => t.id = id with
  | none => exact h.keep ⟨rfl, rfl⟩ rfl rfl rfl fun split t ht => ⟨t, ht⟩
  | some t =>
    obtain ⟨hlookup, -⟩ := Option.filter_eq_some_iff.mp hfilter
    have hset : ∀ (u : ScanTicket) (split : ℕ) (t' : ScanTicket),
        (s.tickets.insert p.split u).lookup split = some t' →
        ∃ t', s.tickets.lookup split = some t' := by
      intro u split t' ht'
      rcases Table.lookup_insert_cases ht' with ⟨rfl, rfl⟩ | ⟨-, ht0⟩
      · exact ⟨t, hlookup⟩
      · exact ⟨t', ht0⟩
    dsimp only
    split_ifs
    · exact h.keep ⟨rfl, rfl⟩ rfl rfl rfl (hset _)
    · exact h.keep ⟨rfl, rfl⟩ rfl rfl rfl (hset _)
    · exact h.keep ⟨rfl, rfl⟩ rfl rfl rfl fun _ t' ht' => ⟨t', (Table.lookup_of_erase ht').2⟩

theorem not_disposed_of_not_behind (h : ¬s.hasFallenBehind split = true) :
    s.stage split ≠ .disposed := by
  intro hstage
  unfold hasFallenBehind at h
  rw [hstage] at h
  exact h rfl

theorem reportReading_disposal {throws : Bool} (h : s.Disposal budget) :
    (s.reportReading split throws).Disposal budget := by
  unfold reportReading
  rw [if_neg (h.configured.1 ▸ h.positive.ne')]
  by_cases hstage : s.stage split = .disposed
  · rw [if_pos hstage]
    exact h
  rw [if_neg hstage]
  cases hl : s.tickets.lookup split with
  | some t =>
    exact h.keep ⟨rfl, rfl⟩ rfl rfl rfl
      (Table.forall_lookup_insert ⟨t, hl⟩ fun _ t' ht' => ⟨t', ht'⟩)
  | none =>
    cases throws with
    | true => exact h
    | false => exact h.insert hstage ⟨rfl, rfl⟩ rfl rfl rfl rfl

theorem reportDisposed_disposal (h : s.Disposal budget) (hstage : s.stage split = .disposed) :
    (s.reportDisposed split).Disposal budget := by
  have hmark : ∀ tickets : Table ℕ ScanTicket, tickets.lookup split = none →
      (∀ split' t, tickets.lookup split' = some t → s.tickets.lookup split' = some t) →
      ∀ s'' : Readahead, SameBudget s s'' → s''.stage = s.stage →
      s''.disposed = split :: s.disposed → s''.ticketed = s.ticketed →
      s''.tickets = tickets → s''.Disposal budget := by
    rintro tickets hnone hsub s'' hbudget hst hdis htick rfl
    refine ⟨h.positive, hbudget.1 ▸ hbudget.2 ▸ h.configured, fun split' hsplit => ?_,
      fun split' t ht => ?_⟩
    · rw [hst]
      rw [hdis] at hsplit
      rcases List.mem_cons.mp hsplit with rfl | hsplit
      · exact ⟨hstage, hnone⟩
      · obtain ⟨hstage', hnone'⟩ := h.gone split' hsplit
        refine ⟨hstage', ?_⟩
        cases hl : s''.tickets.lookup split' with
        | none => rfl
        | some t =>
          rw [hsub split' t hl] at hnone'
          cases hnone'
    · rw [htick]
      exact h.known split' t (hsub split' t ht)
  have herase : ∀ split' t, (s.tickets.erase split).lookup split' = some t →
      s.tickets.lookup split' = some t := fun _ _ ht => (Table.lookup_of_erase ht).2
  unfold reportDisposed
  dsimp only
  rw [if_neg (h.configured.1 ▸ h.positive.ne')]
  cases hl : s.tickets.lookup split with
  | none => exact hmark _ hl (fun _ _ ht => ht) _ ⟨rfl, rfl⟩ rfl rfl rfl rfl
  | some t =>
    dsimp only
    split_ifs
    · exact hmark _ (AList.lookup_erase _ _) herase _ ⟨rfl, rfl⟩ rfl rfl rfl rfl
    · exact hmark _ (AList.lookup_erase _ _) herase _ ⟨rfl, rfl⟩ rfl rfl rfl rfl

/-- The tickets and the splits are as they were. -/
theorem Disposal.same (h : s.Disposal budget) (hbudget : SameBudget s s')
    (hstage : s'.stage = s.stage) (hdisposed : s'.disposed = s.disposed)
    (hticketed : s'.ticketed = s.ticketed) (htickets : s'.tickets = s.tickets) :
    s'.Disposal budget :=
  h.keep hbudget hstage hdisposed hticketed fun _ t ht => ⟨t, htickets ▸ ht⟩

theorem poll_disposal {slot : ℕ} (h : s.Disposal budget) : (s.poll slot).Disposal budget := by
  unfold poll
  split_ifs
  · exact h.same ⟨rfl, rfl⟩ rfl rfl rfl rfl
  cases s.queues[s.cursor]? with
  | none => exact h.same ⟨rfl, rfl⟩ rfl rfl rfl rfl
  | some q =>
    dsimp only
    cases (s.nextCandidate q.queue s.counters).2.1 with
    | some split => exact h.same ⟨rfl, rfl⟩ rfl rfl rfl rfl
    | none =>
      dsimp only
      split_ifs <;> exact h.same ⟨rfl, rfl⟩ rfl rfl rfl rfl

theorem finishRound_disposal
    (h : s.Disposal budget) : (s.finishRound slot split delayed pressure).Disposal budget := by
  have hback : (s.releaseHeld slot).Disposal budget := by
    cases slot with
    | none => exact h
    | some slot => exact h.same ⟨rfl, rfl⟩ rfl rfl rfl rfl
  unfold finishRound
  split_ifs <;> exact hback.same ⟨rfl, rfl⟩ rfl rfl rfl rfl

theorem exit_disposal (h : s.Disposal budget) : s.exit.Disposal budget := by
  unfold exit
  cases s.retry <;> exact h.same ⟨rfl, rfl⟩ rfl rfl rfl rfl

theorem workerStep_disposal {answer : Answer} (hstep : s.workerStep answer = some s')
    (h : s.Disposal budget) : s'.Disposal budget := by
  unfold workerStep at hstep
  cases hw : s.worker <;> simp only [hw] at hstep
  case notStarted => cases hstep
  case stopped => cases hstep
  case idle =>
    split_ifs at hstep <;> cases hstep
    · exact exit_disposal h
    · exact h.same ⟨rfl, rfl⟩ rfl rfl rfl rfl
  case gate =>
    unfold Gatekeeper.acquireFor at hstep
    split_ifs at hstep <;> cases hstep <;> exact h.same ⟨rfl, rfl⟩ rfl rfl rfl rfl
  case acquired slot =>
    split_ifs at hstep
    · cases hstep
      exact exit_disposal (h.same ⟨rfl, rfl⟩ rfl rfl rfl rfl)
    · cases hr : s.retry <;> simp only [hr] at hstep <;> cases hstep
      · exact h.same ⟨rfl, rfl⟩ rfl rfl rfl rfl
      · exact h.same ⟨rfl, rfl⟩ rfl rfl rfl rfl
  case polling slot =>
    cases hstep
    exact poll_disposal h
  case chosen => split_ifs at hstep <;> cases hstep <;> exact h.same ⟨rfl, rfl⟩ rfl rfl rfl rfl
  case sharing => split_ifs at hstep <;> cases hstep <;> exact h.same ⟨rfl, rfl⟩ rfl rfl rfl rfl
  case publishing slot split delayed =>
    split_ifs at hstep with hthrows hbehind <;> cases hstep
    · exact h.same ⟨rfl, rfl⟩ rfl rfl rfl rfl
    · exact h.same ⟨rfl, rfl⟩ rfl rfl rfl rfl
    · push Not at hbehind
      exact h.insert (not_disposed_of_not_behind hbehind.1) ⟨rfl, rfl⟩ rfl rfl rfl rfl
  case attempting => split_ifs at hstep <;> cases hstep <;> exact h.same ⟨rfl, rfl⟩ rfl rfl rfl rfl
  case preparing =>
    unfold afterPrepare at hstep
    split_ifs at hstep <;> cases hstep <;> exact h.same ⟨rfl, rfl⟩ rfl rfl rfl rfl
  case prepared => split_ifs at hstep <;> cases hstep <;> exact h.same ⟨rfl, rfl⟩ rfl rfl rfl rfl
  case abandoned id p delayed pressure =>
    cases hstep
    have hsettled : (s.settlePrefetch id p false).Disposal budget := settlePrefetch_disposal h
    exact hsettled.same ⟨rfl, rfl⟩ rfl rfl rfl rfl
  case returned =>
    cases hstep
    exact finishRound_disposal h

theorem step_disposal {a : Action} (hstep : s.step a = some s') (h : s.Disposal budget) :
    s'.Disposal budget := by
  cases a with
  | start =>
    simp only [step] at hstep
    split_ifs at hstep
    cases hstep
    exact h.same ⟨rfl, rfl⟩ rfl rfl rfl rfl
  | arm =>
    simp only [step, Option.some.injEq] at hstep
    subst hstep
    unfold armPrefetching
    split_ifs
    · exact h
    · exact h.same ⟨rfl, rfl⟩ rfl rfl rfl rfl
  | requestStop | stopGate => cases hstep; exact h.same ⟨rfl, rfl⟩ rfl rfl rfl rfl
  | register op split =>
    simp only [step] at hstep
    cases hq : s.queues[op]? with
    | none => simp [hq] at hstep
    | some q =>
      simp only [hq] at hstep
      split_ifs at hstep <;> cases hstep <;> exact h.same ⟨rfl, rfl⟩ rfl rfl rfl rfl
  | close op =>
    simp only [step] at hstep
    cases hq : s.queues[op]? with
    | none => simp [hq] at hstep
    | some q =>
      simp only [hq, Option.some.injEq] at hstep
      subst hstep
      exact h.same ⟨rfl, rfl⟩ rfl rfl rfl rfl
  | publishStage split stage =>
    simp only [step] at hstep
    split_ifs at hstep with hrank <;> cases hstep
    · refine ⟨h.positive, h.configured, fun split' hsplit => ?_, h.known⟩
      obtain ⟨hstage, hnone⟩ := h.gone split' hsplit
      refine ⟨?_, hnone⟩
      have hne : split' ≠ split := by
        -- The stage of a disposed split does not advance any more.
        rintro rfl
        rw [hstage] at hrank
        cases stage <;> simp [ScanStage.rank] at hrank
      dsimp only
      rw [Function.update_of_ne hne, hstage]
    · exact h
  | expire split =>
    simp only [step] at hstep
    split_ifs at hstep
    cases hstep
    exact h.same ⟨rfl, rfl⟩ rfl rfl rfl rfl
  | reading split throws =>
    simp only [step] at hstep
    split_ifs at hstep
    cases hstep
    exact reportReading_disposal h
  | dispose split =>
    simp only [step] at hstep
    split_ifs at hstep with hguard
    cases hstep
    exact reportDisposed_disposal h hguard.2
  | work answer => exact workerStep_disposal hstep h
  | complete id out =>
    obtain ⟨p, -, rfl⟩ := Option.map_eq_some_iff.mp hstep
    exact settlePrefetch_disposal (h.same ⟨rfl, rfl⟩ rfl rfl rfl rfl)
  | recordOutcome i =>
    obtain ⟨c, -, rfl⟩ := Option.map_eq_some_iff.mp hstep
    exact h.same ⟨rfl, rfl⟩ rfl rfl rfl rfl

end Readahead

end Sirius.ScanManager
