import Sirius.ScanManager.LedgerBounds

/-!
# A call that fails leaves the accounts as they were

`allocate`, `allocate_retained`, `register_unit` and `try_acquire_unit`
(src/scan_manager/preparation_ledger.cpp:120-130, 294-300, 330-353, 378-440) as whole
calls. `register_unit` and `try_acquire_unit` are one critical section. An allocation
charges in a first section, asks the backing outside the lock, and gives the charge back
in a second section when the backing throws or answers without a buffer.

* `Adds`: a ledger is another one with the charge of a block added. The first section
  adds it (`startAllocation_adds`), the second one takes it away (`fail_adds`).
* `failed_call_restores`: a call that fails leaves every counter, limit and unit as it
  found them, and among other steps it takes away what it had added.
-/

namespace Sirius.ScanManager

open Sirius.Common

/-! ## Calls -/

/-- A call, with what the environment answers: `backing` when the buffer and its owner
    object are obtained, `memory` when the nodes of the accounts are. -/
inductive Call (Key : Type) where
  | allocate (p bytes : ℕ) (retained backing : Bool)
  | registerUnit (k : Key) (limit : ℕ) (memory : Bool)
  | tryAcquireUnit (k : Key) (limit : ℕ) (temporaryLimit : Option ℕ) (memory : Bool)
  deriving DecidableEq, Repr

/-- How a call ends. `noPermit` is the empty `w_permit`, `empty` the block of no bytes. -/
inductive Reply where
  | block (i : ℕ)
  | empty
  | registered
  | permit (p : ℕ)
  | noPermit
  | thrown (message : String)
  deriving DecidableEq, Repr

/-- The call did not succeed. -/
def Reply.Failed : Reply → Prop
  | .noPermit => True
  | .thrown _ => True
  | _ => False

instance (r : Reply) : Decidable r.Failed :=
  match r with
  | .noPermit | .thrown _ => .isTrue trivial
  | .block _ | .empty | .registered | .permit _ => .isFalse id

namespace Ledger

variable {Key : Type} [DecidableEq Key] (chargeSize : ℕ → Option ℕ)

/-- What `ledger_state::register_unit` throws (lines 120–130). -/
def registerRefusal (s : Ledger Key) (k : Key) (limit : ℕ) : Option String :=
  match (if limit ≠ 0 ∧ s.grant.isSome then chargeSize limit else some limit) with
  | none => some "preparation envelope overflow"
  | some charge =>
    if (s.units.lookup k).isSome then some "duplicate preparation unit"
    else if charge > s.retainedLimit - s.registered then
      some "unit retained budgets exceed admission"
    else none

/-- The charge of an allocation that fits its envelope (lines 395–411). -/
def envelope (s : Ledger Key) (x : PermitState Key) (u : UnitAccount) (bytes : ℕ)
    (retained : Bool) : Option ℕ :=
  match (if s.grant.isSome then chargeSize bytes else some 0) with
  | none => none
  | some charge =>
    if charge < bytes ∨ (if retained then charge > u.retainedLimit - u.retained ∨
        charge > s.retainedLimit - s.retained else charge > x.temporaryLimit - x.temporary) then none
    else some charge

/-- `allocate_impl(bytes, retained)` on permit `p` (lines 382–440): its steps, when nobody
    interrupts it, and its end. The frame of the call owns the permit from its first step
    to its last one. -/
def allocateCall (s : Ledger Key) (p bytes : ℕ) (retained backing : Bool) :
    List (Action Key) × Reply :=
  let released := ([.lockPermit p], .thrown "released temporary-memory permit")
  let refused := [.lockPermit p, .allocate p bytes retained, .dropBlock s.nextBlock]
  match s.permits.lookup p with
  | none => released
  | some x =>
    if s.Expired p then released
    else if s.closed = true ∨ x.accepting = false then
      (refused, .thrown "preparation allocation closed")
    else if bytes = 0 then (refused, .empty)
    else
      match s.units.lookup x.key with
      | none => (refused, .thrown "map::at")
      | some u =>
        match s.envelope chargeSize x u bytes retained with
        | none => (refused, .thrown "preparation allocation exceeds proved envelope")
        | some _ =>
          if backing then
            ([.lockPermit p, .allocate p bytes retained, .allocated (s.nextBlock + 1) true,
              .dropBlock s.nextBlock], .block (s.nextBlock + 1))
          else
            ([.lockPermit p, .allocate p bytes retained, .allocated (s.nextBlock + 1) false,
              .dropBlock (s.nextBlock + 1), .dropBlock s.nextBlock],
              .thrown "preparation backing allocation failed")

/-- The steps of a call that nobody interrupts, and its end. -/
def behaviour (s : Ledger Key) : Call Key → List (Action Key) × Reply
  | .allocate p bytes retained backing => s.allocateCall chargeSize p bytes retained backing
  | .registerUnit k limit memory =>
    if s.closed then ([.registerUnit k limit], .thrown "preparation closed")
    else
      match s.registerRefusal chargeSize k limit with
      | some message => ([.registerUnit k limit], .thrown message)
      | none =>
        -- `std::map::emplace` throws before it changes the map
        if memory then ([.registerUnit k limit], .registered) else ([], .thrown "std::bad_alloc")
  | .tryAcquireUnit k limit temporaryLimit memory =>
    let section₁ := [.tryAcquireUnit k limit temporaryLimit]
    if s.closed then (section₁, .thrown "preparation closed")
    else if s.active = s.permitLimit then (section₁, .noPermit)
    else if temporaryLimit.getD s.w > s.w then
      (section₁, .thrown "unit temporary budget exceeds admission")
    else if !memory then ([], .thrown "std::bad_alloc")
    else
      match s.registerRefusal chargeSize k limit with
      | some message => (section₁, .thrown message)
      | none => (section₁, .permit s.nextPermit)

/-! ## The same accounts -/

/-- What no charge changes. -/
def standing (s : Ledger Key) : (Option ℕ × ℕ × ℕ × ℕ) × ℕ × ℕ × Bool :=
  (s.limits, s.registered, s.active, s.closed)

/-- The counters, the limits, the units and the permits are the same. -/
structure SameAccounts (s s' : Ledger Key) : Prop where
  standing : s'.standing = s.standing
  retained : s'.retained = s.retained
  units : ∀ k, s'.units.lookup k = s.units.lookup k
  permits : ∀ p, s'.permits.lookup p = s.permits.lookup p

theorem SameAccounts.refl (s : Ledger Key) : SameAccounts s s :=
  ⟨rfl, rfl, fun _ => rfl, fun _ => rfl⟩

theorem SameAccounts.trans {s s₁ s₂ : Ledger Key} (h₁ : SameAccounts s s₁)
    (h₂ : SameAccounts s₁ s₂) : SameAccounts s s₂ where
  standing := h₂.standing.trans h₁.standing
  retained := h₂.retained.trans h₁.retained
  units k := (h₂.units k).trans (h₁.units k)
  permits p := (h₂.permits p).trans (h₁.permits p)


/-- `s'` is `s` with the charge of `b` added. -/
structure Adds (b : Block Key) (s s' : Ledger Key) : Prop where
  standing : s'.standing = s.standing
  retained : s'.retained = s.retained + if b.retained then b.charge else 0
  units : ∀ k, s'.units.lookup k = (s.units.lookup k).map fun u =>
    { u with retained := u.retained + if b.retained = true ∧ b.key = k then b.charge else 0 }
  permits : ∀ p, s'.permits.lookup p = (s.permits.lookup p).map fun x =>
    { x with temporary := x.temporary + if b.retained = false ∧ b.permit = p then b.charge else 0 }

theorem addRetained_injective (n : ℕ) :
    Function.Injective fun u : UnitAccount => { u with retained := u.retained + n } := by
  rintro ⟨l, r, p, t⟩ ⟨l', r', p', t'⟩ h
  simp only [UnitAccount.mk.injEq, Nat.add_right_cancel_iff] at h
  simp only [UnitAccount.mk.injEq]
  exact h

omit [DecidableEq Key] in
theorem addTemporary_injective (n : ℕ) :
    Function.Injective fun x : PermitState Key => { x with temporary := x.temporary + n } := by
  rintro ⟨k, t, l, a, h⟩ ⟨k', t', l', a', h'⟩ heq
  simp only [PermitState.mk.injEq, Nat.add_right_cancel_iff] at heq
  simp only [PermitState.mk.injEq]
  exact heq

variable {s s₁ s' : Ledger Key} {b : Block Key}

/-- A charge that is added and taken away leaves the accounts as they were. -/
theorem Adds.cancel (hadd : Adds b s s₁) (htake : Adds b s' s₁) : SameAccounts s s' where
  standing := htake.standing.symm.trans hadd.standing
  retained := by
    have hretained := htake.retained.symm.trans hadd.retained
    omega
  units k := Option.map_injective (addRetained_injective _)
    ((htake.units k).symm.trans (hadd.units k))
  permits p := Option.map_injective (addTemporary_injective _)
    ((htake.permits p).symm.trans (hadd.permits p))

variable {chargeSize}

/-! ## The two sections of an allocation -/

/-- The first section: the ledger with the charge taken and the block inside the backing. -/
def takeCharge (s : Ledger Key) (p : ℕ) (x : PermitState Key) (u : UnitAccount) (charge : ℕ)
    (retained : Bool) : Ledger Key :=
  let s' := if retained then
    { s.setUnit x.key { u with retained := u.retained + charge } with
      retained := s.retained + charge }
  else s.setPermit p { x with temporary := x.temporary + charge }
  { s'.setBlock s.nextBlock { permit := p, key := x.key, charge, retained } with
    nextBlock := s.nextBlock + 1 }

variable {p bytes i : ℕ} {x : PermitState Key} {retained : Bool}

theorem startAllocation_eq {u : UnitAccount} (hclosed : ¬(s.closed = true ∨ x.accepting = false))
    (hbytes : bytes ≠ 0) (hu : s.units.lookup x.key = some u) :
    s.startAllocation chargeSize p x bytes retained =
      match s.envelope chargeSize x u bytes retained with
      | none => { s with exceeded := s.exceeded + 1 }
      | some charge => s.takeCharge p x u charge retained := by
  have hopen : ¬(s.closed = true ∨ x.accepting = false ∨ bytes = 0) := by tauto
  rw [startAllocation, if_neg hopen, hu]
  simp only [envelope]
  rcases (if s.grant.isSome then chargeSize bytes else some 0) with _ | charge
  · rfl
  · cases retained with
    | true =>
      simp only [if_true, takeCharge]
      split_ifs <;> rfl
    | false =>
      simp only [Bool.false_eq_true, if_false, takeCharge]
      split_ifs <;> rfl

theorem takeCharge_adds {p charge : ℕ} {u : UnitAccount} (hp : s.permits.lookup p = some x)
    (hu : s.units.lookup x.key = some u) : Adds { permit := p, key := x.key, charge, retained } s
      (s.takeCharge p x u charge retained) := by
  cases retained with
  | true =>
    refine ⟨rfl, rfl, fun k => ?_, fun q => by simp [takeCharge, setBlock, setUnit]⟩
    by_cases hk : x.key = k
    · subst hk
      simp [takeCharge, setBlock, setUnit, hu]
    · have hk' : ¬k = x.key := fun h => hk h.symm
      simp [takeCharge, setBlock, setUnit, hk, hk']
  | false =>
    refine ⟨rfl, rfl, fun k => by simp [takeCharge, setBlock, setPermit], fun q => ?_⟩
    by_cases hq : p = q
    · subst hq
      simp [takeCharge, setBlock, setPermit, hp]
    · have hq' : ¬q = p := fun h => hq h.symm
      simp [takeCharge, setBlock, setPermit, hq, hq']

/-- A block's charge is in the counters that its refund takes it from. -/
def Covered (s : Ledger Key) (b : Block Key) : Prop :=
  if b.retained then
    b.charge ≤ s.retained ∧ ∃ u, s.units.lookup b.key = some u ∧ b.charge ≤ u.retained
  else ∃ x, s.permits.lookup b.permit = some x ∧ b.charge ≤ x.temporary

theorem Adds.covered (h : Adds b s s') (hunit : b.retained = true → (s.units.lookup b.key).isSome)
    (hpermit : b.retained = false → (s.permits.lookup b.permit).isSome) : Covered s' b := by
  unfold Covered
  split_ifs with hr
  · obtain ⟨u, hu⟩ := Option.isSome_iff_exists.mp (hunit hr)
    refine ⟨by rw [h.retained, if_pos hr]; omega, _, by rw [h.units, hu]; rfl, ?_⟩
    simp [hr]
  · rw [Bool.not_eq_true] at hr
    obtain ⟨x, hx⟩ := Option.isSome_iff_exists.mp (hpermit hr)
    refine ⟨_, by rw [h.permits, hx]; rfl, ?_⟩
    simp [hr]

/-- The second section takes away what the first one added. -/
theorem refund_adds (h : Covered s b) : Adds b (s.refund b) s := by
  unfold Covered at h
  by_cases hr : b.retained = true
  · rw [if_pos hr] at h
    obtain ⟨hle, u, hu, hule⟩ := h
    have hrefund : s.refund b = { s.setUnit b.key { u with retained := u.retained - b.charge } with
        retained := s.retained - b.charge } := by
      simp [refund, hr, hu]
    rw [hrefund]
    refine ⟨rfl, ?_, fun k => ?_, fun q => by simp [setUnit, hr]⟩
    · simp only [hr, if_true]
      omega
    · by_cases hk : b.key = k
      · subst hk
        simp [setUnit, hu, hr, hule]
      · have hk' : ¬k = b.key := fun h => hk h.symm
        simp [setUnit, hk, hk']
  · rw [if_neg hr] at h
    obtain ⟨x, hx, hle⟩ := h
    rw [Bool.not_eq_true] at hr
    have hrefund : s.refund b =
        s.setPermit b.permit { x with temporary := x.temporary - b.charge } := by
      simp [refund, hr, hx]
    rw [hrefund]
    refine ⟨rfl, by simp [setPermit, hr], fun k => by simp [setPermit, hr], fun q => ?_⟩
    by_cases hq : b.permit = q
    · subst hq
      simp [setPermit, hx, hr, hle]
    · have hq' : ¬q = b.permit := fun h => hq h.symm
      simp [setPermit, hq, hq']

/-! ## A call that nobody interrupts -/

/-- The frame of a call, which owns the permit and has no charge. -/
def frameBlock (p : ℕ) (x : PermitState Key) : Block Key :=
  { permit := p, key := x.key, charge := 0, retained := false, stage := .freed }

/-- The ledger after `state_.lock()`. -/
def lockFrame (s : Ledger Key) (p : ℕ) (x : PermitState Key) : Ledger Key :=
  { s.setBlock s.nextBlock (frameBlock p x) with nextBlock := s.nextBlock + 1 }

omit [DecidableEq Key] in
theorem lockFrame_block (s : Ledger Key) (p : ℕ) (x : PermitState Key) :
    (s.lockFrame p x).blocks.lookup s.nextBlock = some (frameBlock p x) :=
  AList.lookup_insert s.blocks

theorem lockFrame_same (s : Ledger Key) (p : ℕ) (x : PermitState Key) :
    SameAccounts s (s.lockFrame p x) :=
  ⟨rfl, rfl, fun _ => rfl, fun _ => rfl⟩

/-- The first two steps of an allocation on a permit with an owner. -/
theorem run_lock_allocate (hp : s.permits.lookup p = some x) (he : ¬s.Expired p)
    (as : List (Action Key)) :
    run (step chargeSize) s (.lockPermit p :: .allocate p bytes retained :: as) =
      run (step chargeSize) ((s.lockFrame p x).startAllocation chargeSize p x bytes retained)
        as := by
  have hlock : step chargeSize s (.lockPermit p) = some (s.lockFrame p x) := by
    simp only [step, hp, if_neg he, lockFrame, frameBlock]
  have hp' : (s.lockFrame p x).permits.lookup p = some x := hp
  have he' : ¬(s.lockFrame p x).Expired p :=
    not_expired_of_holds (lockFrame_block s p x) (Or.inl (by simp [frameBlock])) hp'
  have hallocate : step chargeSize (s.lockFrame p x) (.allocate p bytes retained) =
      some ((s.lockFrame p x).startAllocation chargeSize p x bytes retained) := by
    simp only [step, hp', if_neg he']
  rw [run_cons, hlock, Option.bind_some, run_cons, hallocate, Option.bind_some]

/-- The end of a frame. -/
theorem step_dropBlock (hb : s.blocks.lookup i = some b) (hs : b.stage = .freed) :
    step chargeSize s (.dropBlock i) = some { s with blocks := s.blocks.erase i } := by
  simp only [step, hb, if_pos hs]

/-- An allocation whose first section charges nothing. -/
theorem run_refused (hp : s.permits.lookup p = some x) (he : ¬s.Expired p)
    (h₁ : (s.lockFrame p x).startAllocation chargeSize p x bytes retained = s₁)
    (hsame : SameAccounts (s.lockFrame p x) s₁) (hblocks : s₁.blocks = (s.lockFrame p x).blocks) :
    ∃ s', run (step chargeSize) s
        [.lockPermit p, .allocate p bytes retained, .dropBlock s.nextBlock] = some s' ∧
      SameAccounts s s' := by
  have hframe : s₁.blocks.lookup s.nextBlock = some (frameBlock p x) := by
    rw [hblocks, lockFrame_block]
  rw [run_lock_allocate hp he, h₁, run_cons, step_dropBlock hframe rfl, Option.bind_some, run_nil]
  refine ⟨_, rfl, ((lockFrame_same s p x).trans hsame).trans ?_⟩
  exact ⟨rfl, rfl, fun _ => rfl, fun _ => rfl⟩

/-- The second section, when the backing has failed. -/
theorem step_allocated_false (hb : s.blocks.lookup i = some b) (hs : b.stage = .pending) :
    step chargeSize s (.allocated i false) =
      some { (s.refund b).setBlock i { b with stage := .freed } with
        allocationFailures := s.allocationFailures + 1 } := by
  simp only [step, hb, if_pos hs, Bool.false_eq_true, if_false]

/-- What the second section does to the accounts. -/
theorem fail_adds (hb : s.blocks.lookup i = some b)
    (hs : b.stage = .pending) (hcovered : Covered s b)
    (h : step chargeSize s (.allocated i false) = some s') : Adds b s' s := by
  rw [step_allocated_false hb hs] at h
  obtain rfl := Option.some.inj h
  have hrefund := refund_adds hcovered
  exact ⟨hrefund.standing, hrefund.retained, hrefund.units, hrefund.permits⟩

/-- An allocation whose backing fails. -/
theorem run_failed {p bytes charge : ℕ} {u : UnitAccount} (hp : s.permits.lookup p = some x) (he : ¬s.Expired p)
    (hu : s.units.lookup x.key = some u)
    (h₁ : (s.lockFrame p x).startAllocation chargeSize p x bytes retained =
      (s.lockFrame p x).takeCharge p x u charge retained) :
    ∃ s', run (step chargeSize) s
        [.lockPermit p, .allocate p bytes retained, .allocated (s.nextBlock + 1) false,
          .dropBlock (s.nextBlock + 1), .dropBlock s.nextBlock] = some s' ∧
      SameAccounts s s' := by
  set s₁ := (s.lockFrame p x).takeCharge p x u charge retained with hs₁
  set b : Block Key := { permit := p, key := x.key, charge, retained } with hbdef
  have hadds : Adds b (s.lockFrame p x) s₁ :=
    takeCharge_adds (s := s.lockFrame p x) hp hu
  have hcovered : Covered s₁ b := by
    refine hadds.covered (fun _ => ?_) fun _ => ?_
    · exact Option.isSome_iff_exists.mpr ⟨u, hu⟩
    · exact Option.isSome_iff_exists.mpr ⟨x, hp⟩
  have hblocks : s₁.blocks = (s.lockFrame p x).blocks.insert (s.nextBlock + 1) b := by
    cases retained <;> rfl
  have hb : s₁.blocks.lookup (s.nextBlock + 1) = some b := by
    rw [hblocks]
    exact AList.lookup_insert _
  have hframe : s₁.blocks.lookup s.nextBlock = some (frameBlock p x) := by
    rw [hblocks, AList.lookup_insert_ne (Nat.ne_of_lt (Nat.lt_succ_self _)), lockFrame_block]
  have hfail : step chargeSize s₁ (.allocated (s.nextBlock + 1) false) = _ :=
    step_allocated_false hb rfl
  have htake := fail_adds hb rfl hcovered hfail
  set s₂ : Ledger Key := { (s₁.refund b).setBlock (s.nextBlock + 1) { b with stage := .freed } with
    allocationFailures := s₁.allocationFailures + 1 } with hs₂
  have hfreed : s₂.blocks.lookup (s.nextBlock + 1) = some { b with stage := .freed } :=
    AList.lookup_insert _
  have hframe₂ : (s₂.blocks.erase (s.nextBlock + 1)).lookup s.nextBlock =
      some (frameBlock p x) := by
    rw [AList.lookup_erase_ne (Nat.ne_of_lt (Nat.lt_succ_self _))]
    refine (AList.lookup_insert_ne (Nat.ne_of_lt (Nat.lt_succ_self _))).trans ?_
    rw [refund_blocks, hframe]
  rw [run_lock_allocate hp he, h₁, run_cons, hfail, Option.bind_some, run_cons,
    step_dropBlock hfreed rfl, Option.bind_some, run_cons, step_dropBlock hframe₂ rfl,
    Option.bind_some, run_nil]
  refine ⟨_, rfl, ((lockFrame_same s p x).trans (hadds.cancel htake)).trans ?_⟩
  exact ⟨rfl, rfl, fun _ => rfl, fun _ => rfl⟩

theorem registerUnit_eq_none {k : Key} {limit : ℕ} {message : String}
    (h : s.registerRefusal chargeSize k limit = some message) :
    s.registerUnit chargeSize k limit = none := by
  unfold registerRefusal at h
  unfold registerUnit
  generalize (if limit ≠ 0 ∧ s.grant.isSome then chargeSize limit else some limit) = answer at h ⊢
  cases answer with
  | none => rfl
  | some charge =>
    simp only at h ⊢
    split_ifs at h with hknown hbudget
    · rw [if_pos hknown]
    · rw [if_neg hknown, if_pos hbudget]

/-- `allocate` and `allocate_retained`. -/
theorem allocateCall_restores (s : Ledger Key) (p bytes : ℕ) (retained backing : Bool)
    (hfail : (s.allocateCall chargeSize p bytes retained backing).2.Failed) :
    ∃ s', run (step chargeSize) s (s.allocateCall chargeSize p bytes retained backing).1 =
      some s' ∧ SameAccounts s s' := by
  unfold allocateCall at hfail ⊢
  rcases hp : s.permits.lookup p with _ | x
  · refine ⟨s, ?_, .refl s⟩
    simp only [run_cons, step, hp, Option.bind_some, run_nil]
  simp only [hp] at hfail ⊢
  by_cases he : s.Expired p
  · simp only [if_pos he]
    refine ⟨s, ?_, .refl s⟩
    simp only [run_cons, step, hp, if_pos he, Option.bind_some, run_nil]
  simp only [if_neg he] at hfail ⊢
  by_cases hclosed : s.closed = true ∨ x.accepting = false
  · simp only [if_pos hclosed]
    have hrefused : (s.lockFrame p x).startAllocation chargeSize p x bytes retained =
        s.lockFrame p x := if_pos (hclosed.imp_right Or.inl)
    exact run_refused hp he hrefused (.refl _) rfl
  simp only [if_neg hclosed] at hfail ⊢
  by_cases hbytes : bytes = 0
  · simp only [if_pos hbytes, Reply.Failed] at hfail
  simp only [if_neg hbytes] at hfail ⊢
  rcases hu : s.units.lookup x.key with _ | u
  · have hmissing : (s.lockFrame p x).startAllocation chargeSize p x bytes retained =
        { s.lockFrame p x with missingUnit := true } := by
      have hopen : ¬(s.closed = true ∨ x.accepting = false ∨ bytes = 0) := by tauto
      have hu' : (s.lockFrame p x).units.lookup x.key = none := hu
      rw [startAllocation, hu']
      exact if_neg hopen
    exact run_refused hp he hmissing ⟨rfl, rfl, fun _ => rfl, fun _ => rfl⟩ rfl
  simp only [hu] at hfail ⊢
  have hstart : (s.lockFrame p x).startAllocation chargeSize p x bytes retained =
      match s.envelope chargeSize x u bytes retained with
      | none => { s.lockFrame p x with exceeded := s.exceeded + 1 }
      | some charge => (s.lockFrame p x).takeCharge p x u charge retained :=
    startAllocation_eq hclosed hbytes hu
  rcases hcharge : s.envelope chargeSize x u bytes retained with _ | charge
  · rw [hcharge] at hstart
    exact run_refused hp he hstart ⟨rfl, rfl, fun _ => rfl, fun _ => rfl⟩ rfl
  · rw [hcharge] at hstart
    simp only [hcharge] at hfail ⊢
    cases backing with
    | true => simp only [if_true, Reply.Failed] at hfail
    | false => exact run_failed hp he hu hstart

/-- Every call. -/
theorem call_restores (s : Ledger Key) (c : Call Key)
    (hfail : (s.behaviour chargeSize c).2.Failed) :
    ∃ s', run (step chargeSize) s (s.behaviour chargeSize c).1 = some s' ∧ SameAccounts s s' := by
  cases c with
  | allocate p bytes retained backing => exact allocateCall_restores s p bytes retained backing hfail
  | registerUnit k limit memory =>
    refine ⟨s, ?_, .refl s⟩
    simp only [behaviour] at hfail ⊢
    by_cases hclosed : s.closed = true
    · simp only [hclosed, if_true, run_cons, step, Option.bind_some, run_nil]
    simp only [if_neg hclosed] at hfail ⊢
    rcases hrefusal : s.registerRefusal chargeSize k limit with _ | message
    · rw [hrefusal] at hfail
      cases memory with
      | true => simp only [if_true, Reply.Failed] at hfail
      | false => rfl
    · simp only [run_cons, step, if_neg hclosed, registerUnit_eq_none hrefusal, Option.getD_none,
        Option.bind_some, run_nil]
  | tryAcquireUnit k limit temporaryLimit memory =>
    refine ⟨s, ?_, .refl s⟩
    simp only [behaviour] at hfail ⊢
    by_cases hclosed : s.closed = true
    · simp only [hclosed, if_true, run_cons, step, true_or, Option.bind_some, run_nil]
    simp only [if_neg hclosed] at hfail ⊢
    by_cases hactive : s.active = s.permitLimit
    · simp only [hactive, if_true, run_cons, step, true_or, or_true, Option.bind_some, run_nil]
    simp only [if_neg hactive] at hfail ⊢
    by_cases hlimit : temporaryLimit.getD s.w > s.w
    · simp only [hlimit, if_true, run_cons, step, or_true, Option.bind_some, run_nil]
    simp only [if_neg hlimit] at hfail ⊢
    cases memory with
    | false => rfl
    | true =>
      simp only [Bool.not_true, Bool.false_eq_true, if_false] at hfail ⊢
      rcases hrefusal : s.registerRefusal chargeSize k limit with _ | message
      · simp only [hrefusal, Reply.Failed] at hfail
      · have hopen : ¬(s.closed = true ∨ s.active = s.permitLimit ∨
            temporaryLimit.getD s.w > s.w) := by tauto
        simp only [run_cons, step, if_neg hopen, registerUnit_eq_none hrefusal, Option.bind_some,
          run_nil]

/-! ## A call among other steps -/

theorem eraseRetired_blocks (s : Ledger Key) (k : Key) : (s.eraseRetired k).blocks = s.blocks := by
  unfold eraseRetired
  split
  · split_ifs <;> rfl
  · rfl

theorem registerUnit_blocks {k : Key} {limit : ℕ}
    (h : s.registerUnit chargeSize k limit = some s') : s'.blocks = s.blocks := by
  unfold registerUnit at h
  split at h
  · cases h
  · split_ifs at h
    cases h
    rfl

/-- The first section adds at most one block, and then it adds its charge. -/
theorem startAllocation_adds (chargeSize : ℕ → Option ℕ) (hp : s.permits.lookup p = some x)
    (bytes : ℕ) (retained : Bool) : let s₁ := s.startAllocation chargeSize p x bytes retained
    (s₁.blocks = s.blocks ∧ s₁.nextBlock = s.nextBlock ∧ SameAccounts s s₁) ∨
      ∃ b : Block Key, b.stage = .pending ∧ s₁.blocks = s.blocks.insert s.nextBlock b ∧
        s₁.nextBlock = s.nextBlock + 1 ∧ Adds b s s₁ := by
  intro s₁
  by_cases hrefused : s.closed = true ∨ x.accepting = false ∨ bytes = 0
  · have hs₁ : s₁ = s := if_pos hrefused
    rw [hs₁]
    exact .inl ⟨rfl, rfl, .refl s⟩
  rcases hu : s.units.lookup x.key with _ | u
  · have hs₁ : s₁ = { s with missingUnit := true } := by
      simp only [s₁, startAllocation, if_neg hrefused, hu]
    rw [hs₁]
    exact .inl ⟨rfl, rfl, rfl, rfl, fun _ => rfl, fun _ => rfl⟩
  have hs₁ : s₁ = match s.envelope chargeSize x u bytes retained with
      | none => { s with exceeded := s.exceeded + 1 }
      | some charge => s.takeCharge p x u charge retained :=
    startAllocation_eq (fun h => hrefused (h.imp_right Or.inl))
      (fun h => hrefused (.inr (.inr h))) hu
  rw [hs₁]
  cases s.envelope chargeSize x u bytes retained with
  | none => exact .inl ⟨rfl, rfl, rfl, rfl, fun _ => rfl, fun _ => rfl⟩
  | some charge =>
    refine .inr ⟨_, rfl, ?_, ?_, takeCharge_adds hp hu⟩
    · cases retained <;> rfl
    · cases retained <;> rfl

/-- A block stays inside the backing until the backing has answered. -/
theorem pending_stays (hA : Accounts s) (hb : s.blocks.lookup i = some b)
    (hs : b.stage = .pending) {a : Action Key} (ha : ∀ ok, a ≠ .allocated i ok)
    (h : step chargeSize s a = some s') : s'.blocks.lookup i = some b := by
  have hfresh : i ≠ s.nextBlock := Nat.ne_of_lt (hA.blockId i b hb).1
  have hother : ∀ {j : ℕ} {c : Block Key}, s.blocks.lookup j = some c → c.stage ≠ .pending →
      i ≠ j := by
    rintro j c hc hstage rfl
    rw [hb] at hc
    obtain rfl := Option.some.inj hc
    exact hstage hs
  cases a with
  | registerUnit k limit =>
    simp only [step] at h
    split at h
    · cases h
      exact hb
    · cases h
      cases hreg : s.registerUnit chargeSize k limit with
      | none => exact hb
      | some s₁ =>
        rw [Option.getD_some, registerUnit_blocks hreg]
        exact hb
  | retireUnit k =>
    simp only [step] at h
    split at h
    · cases h
      exact hb
    · cases h
      rw [eraseRetired_blocks]
      exact hb
  | tryAcquireUnit k limit temporaryLimit =>
    simp only [step] at h
    split at h
    · cases h
      exact hb
    split at h
    · cases h
      exact hb
    rename_i s₁ hreg
    have hs₁ := registerUnit_blocks hreg
    split at h
    · cases h
      rw [hs₁]
      exact hb
    · cases h
      exact hs₁ ▸ hb
  | destroyPermit p =>
    simp only [step] at h
    split at h
    · split_ifs at h
      cases h
      rw [eraseRetired_blocks]
      exact hb
    · cases h
  | lockPermit p =>
    simp only [step] at h
    split at h
    · split_ifs at h
      · cases h
        exact hb
      · cases h
        exact (AList.lookup_insert_ne hfresh).trans hb
    · cases h
      exact hb
  | allocate p bytes retained =>
    simp only [step] at h
    split at h
    · rename_i x hp
      split_ifs at h
      · cases h
        exact hb
      · cases h
        rcases startAllocation_adds chargeSize hp bytes retained with
          ⟨hblocks, -⟩ | ⟨c, -, hblocks, -⟩
        · rw [hblocks]
          exact hb
        · rw [hblocks, AList.lookup_insert_ne hfresh]
          exact hb
    · cases h
      exact hb
  | allocated j ok =>
    have hj : i ≠ j := by
      rintro rfl
      exact ha ok rfl
    simp only [step] at h
    split at h
    · split_ifs at h
      · cases h
        exact (AList.lookup_insert_ne hj).trans hb
      · cases h
        refine (AList.lookup_insert_ne hj).trans ?_
        rw [refund_blocks]
        exact hb
    · cases h
  | releaseBlock j =>
    simp only [step] at h
    split at h
    · rename_i c hc
      split_ifs at h with hlive
      · cases h
        rw [eraseRetired_blocks]
        exact (AList.lookup_erase_ne (hother hc (by simp [hlive]))).trans hb
      · cases h
        refine (AList.lookup_insert_ne (hother hc (by simp [hlive]))).trans ?_
        rw [refund_blocks]
        exact hb
    · cases h
  | dropBlock j =>
    simp only [step] at h
    split at h
    · rename_i c hc
      split_ifs at h with hfreed
      cases h
      exact (AList.lookup_erase_ne (hother hc (by simp [hfreed]))).trans hb
    · cases h
  | acquirePermit k | stopPermit p | dropPermit p | close =>
    simp only [step] at h
    repeat' split at h
    all_goals
      cases h
      try exact hb

/-- A charged block is covered by the counters it is charged to. -/
theorem Accounts.covered (hA : Accounts s) (hb : s.blocks.lookup i = some b)
    (hs : b.stage = .pending) : Covered s b := by
  have hcharged : b.charged = b.charge := by simp [Block.charged, hs]
  unfold Covered
  split_ifs with hr
  · have hretained : b.retainedCharge = b.charge := by rw [Block.retainedCharge, if_pos hr, hcharged]
    obtain ⟨u, hu⟩ := hA.unit_of_retained hb (by simp [hs]) hr
    have hledger : b.retainedCharge ≤ s.retained := by
      rw [hA.retained]
      exact Table.le_total (f := fun _ b => Block.retainedCharge b) hb
    have hunit : b.unitCharge b.key ≤ u.retained := by
      rw [hA.unitRetained _ _ hu]
      exact Table.le_total (f := fun _ c => Block.unitCharge b.key c) hb
    rw [Block.unitCharge, if_pos rfl] at hunit
    rw [hretained] at hledger hunit
    exact ⟨hledger, u, hu, hunit⟩
  · obtain ⟨x, hx, -⟩ := hA.blockPermit i b hb (.inl (by simp [hs]))
    have hpermit : b.permitCharge b.permit ≤ x.temporary := by
      rw [hA.permitTemporary _ _ hx]
      exact Table.le_total (f := fun _ c => Block.permitCharge b.permit c) hb
    rw [Block.permitCharge, if_pos rfl, Block.temporaryCharge, if_neg hr, hcharged] at hpermit
    exact ⟨x, hx, hpermit⟩

/-- An allocation that charges, whatever the others do, and then fails: the second section
    takes away what the first one added, and nothing else. -/
theorem interleaved_restores {s0 s s₁ s₂ s₃ : Ledger Key} {as₀ as : List (Action Key)}
    (h0 : s0.Fresh) (hrun₀ : run (step chargeSize) s0 as₀ = some s)
    (hstart : step chargeSize s (.allocate p bytes retained) = some s₁)
    (hcharged : s₁.nextBlock ≠ s.nextBlock) (hrun : run (step chargeSize) s₁ as = some s₂)
    (hother : ∀ ok, Action.allocated s.nextBlock ok ∉ as)
    (hfail : step chargeSize s₂ (.allocated s.nextBlock false) = some s₃) :
    ∃ b : Block Key, Adds b s s₁ ∧ Adds b s₃ s₂ := by
  have hA := (run_accounts h0 hrun₀).1
  have hA₁ := accounts_step hA hstart
  have hblock : ∃ b : Block Key, b.stage = .pending ∧ s₁.blocks.lookup s.nextBlock = some b ∧
      Adds b s s₁ := by
    simp only [step] at hstart
    split at hstart
    · rename_i x hp
      split_ifs at hstart
      · cases hstart
        exact absurd rfl hcharged
      · cases hstart
        rcases startAllocation_adds chargeSize hp bytes retained with
          ⟨-, hnext, -⟩ | ⟨b, hs, hblocks, -, hadds⟩
        · exact absurd hnext hcharged
        · exact ⟨b, hs, by rw [hblocks, AList.lookup_insert], hadds⟩
    · cases hstart
      exact absurd rfl hcharged
  obtain ⟨b, hs, hb, hadds⟩ := hblock
  have hpending : Accounts s₂ ∧ s₂.blocks.lookup s.nextBlock = some b := by
    clear hfail hcharged hstart hadds
    induction as generalizing s₁ with
    | nil =>
      obtain rfl := Option.some.inj hrun
      exact ⟨hA₁, hb⟩
    | cons a as ih =>
      obtain ⟨t, hstep, hrest⟩ := Option.bind_eq_some_iff.mp hrun
      have hnot : ∀ ok, a ≠ .allocated s.nextBlock ok := by
        rintro ok rfl
        exact hother ok List.mem_cons_self
      exact ih hrest (fun ok hok => hother ok (List.mem_cons_of_mem a hok))
        (accounts_step hA₁ hstep) (pending_stays hA₁ hb hs hnot hstep)
  exact ⟨b, hadds, fail_adds hpending.2 hs (hpending.1.covered hpending.2 hs) hfail⟩

/-- **A call that fails leaves the accounts as they were.** In every state of the ledger, a
    call of `allocate`, `allocate_retained`, `register_unit` or `try_acquire_unit` that
    throws or returns no permit runs to its end and leaves every charge counter, every
    limit, every unit, every permit and the count of active permits as it found them; only
    the statistics move. When other threads run between the two sections of an allocation,
    in any run after admission, the section that fails takes away exactly what the section
    that charged had added. -/
theorem failed_call_restores (chargeSize : ℕ → Option ℕ) :
    (∀ (s : Ledger Key) (c : Call Key), (s.behaviour chargeSize c).2.Failed →
      ∃ s', run (step chargeSize) s (s.behaviour chargeSize c).1 = some s' ∧
        SameAccounts s s') ∧
    ∀ (s0 s s₁ s₂ s₃ : Ledger Key) (as₀ as : List (Action Key)) (p bytes : ℕ) (retained : Bool),
      s0.Fresh → run (step chargeSize) s0 as₀ = some s →
      step chargeSize s (.allocate p bytes retained) = some s₁ → s₁.nextBlock ≠ s.nextBlock →
      run (step chargeSize) s₁ as = some s₂ → (∀ ok, Action.allocated s.nextBlock ok ∉ as) →
      step chargeSize s₂ (.allocated s.nextBlock false) = some s₃ →
      ∃ b : Block Key, Adds b s s₁ ∧ Adds b s₃ s₂ :=
  ⟨fun s c hfail => call_restores s c hfail,
    fun _ _ _ _ _ _ _ _ _ _ h0 hrun₀ hstart hcharged hrun hother hfail =>
      interleaved_restores h0 hrun₀ hstart hcharged hrun hother hfail⟩

/-- A temporary block whose backing fails, alone and with the permit released meanwhile. -/
theorem failed_call_restores_backing :
    let chargeSize : ℕ → Option ℕ := fun bytes => some ((bytes + 63) / 64 * 64)
    let s0 : Ledger ℕ := { grant := some 192, retainedLimit := 64, w := 128, permitLimit := 1 }
    ∃ s s₁ s₂ s₃, run (step chargeSize) s0 [.tryAcquireUnit 0 10 none] = some s ∧
      (s.behaviour chargeSize (.allocate 0 100 false false)).2 =
        .thrown "preparation backing allocation failed" ∧
      (∃ s', run (step chargeSize) s
          (s.behaviour chargeSize (.allocate 0 100 false false)).1 = some s' ∧
        SameAccounts s s') ∧
      step chargeSize s (.allocate 0 100 false) = some s₁ ∧
      run (step chargeSize) s₁ [.stopPermit 0, .dropPermit 0] = some s₂ ∧
      step chargeSize s₂ (.allocated 0 false) = some s₃ ∧
      ∃ b : Block ℕ, Adds b s s₁ ∧ Adds b s₃ s₂ := by
  intro chargeSize s0
  refine ⟨_, _, _, _, rfl, by decide, (failed_call_restores chargeSize).1 _ _ (by decide), rfl, rfl,
    rfl, ?_⟩
  exact (failed_call_restores chargeSize).2 s0 _ _ _ _ [.tryAcquireUnit 0 10 none]
    [.stopPermit 0, .dropPermit 0] 0 100 false ⟨rfl, rfl, rfl, rfl, rfl, rfl, rfl⟩ rfl rfl
    (by decide) rfl (by simp) rfl

end Ledger

end Sirius.ScanManager
