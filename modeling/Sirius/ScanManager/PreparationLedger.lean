import Sirius.Common.Run
import Sirius.Common.Table

/-!
# The preparation ledger

Model of `src/scan_manager/preparation_ledger.cpp`: admission (lines 191–289),
the accounts of units and permits (106–171), and the charged allocations
(172–190, 382–440).

Every critical section of the ledger's mutex is one step, and so are
`weak_ptr::lock` and the destruction of a `permit_state`, which happens when its
last owner is gone: the `w_permit`, a temporary block, or an allocation under
way. Between two steps anything can happen. Byte counts are `uint64_t`; the invariant of
`LedgerBounds` shows that no addition or subtraction leaves the range, so they
are modelled in `ℕ`.

The backing is a parameter: `chargeSize bytes` is `charge_size(bytes)`, or
`none` when it throws `overflow_error`.
-/

namespace Sirius.ScanManager

open Sirius.Common

/-! ## Accounts -/

/-- `unit_account` (lines 106–110). `permit` is the `weak_ptr`: the permit that
    was last installed. -/
structure UnitAccount where
  retainedLimit : ℕ
  retained : ℕ := 0
  permit : Option ℕ := none
  retired : Bool := false
  deriving DecidableEq, Repr

/-- `permit_state` (lines 144–171), with `handle` for the `w_permit` that owns
    it. -/
structure PermitState (Key : Type) where
  key : Key
  temporary : ℕ := 0
  temporaryLimit : ℕ
  accepting : Bool := true
  handle : Bool := true
  deriving DecidableEq, Repr

/-- Where an allocation stands. `pending` is charged and inside the backing;
    `live` is a `charged_block`; `freed` has no charge, or has given it back, and
    still owns its permit. -/
inductive BlockStage where
  | pending | live | freed
  deriving DecidableEq, Repr

/-- `allocation_owner` (lines 173–189), or the frame of `allocate_impl`. -/
structure Block (Key : Type) where
  permit : ℕ
  key : Key
  charge : ℕ
  retained : Bool
  stage : BlockStage := .pending
  deriving DecidableEq, Repr

/-- The block owns its permit: an allocation under way, and a temporary block. -/
def Block.Holds {Key : Type} (b : Block Key) : Prop := b.stage ≠ .live ∨ b.retained = false

instance {Key : Type} (b : Block Key) : Decidable b.Holds := inferInstanceAs (Decidable (_ ∨ _))

/-- `ledger_state` (lines 111–131). `grant` is the granted bytes, if there is a
    grant. `missingUnit` is set when `units.at(key)` throws. -/
structure Ledger (Key : Type) where
  grant : Option ℕ := none
  retainedLimit : ℕ := 0
  registered : ℕ := 0
  retained : ℕ := 0
  w : ℕ := 0
  permitLimit : ℕ := 0
  active : ℕ := 0
  exceeded : ℕ := 0
  allocationFailures : ℕ := 0
  closed : Bool := false
  units : Table Key UnitAccount := ∅
  permits : Table ℕ (PermitState Key) := ∅
  blocks : Table ℕ (Block Key) := ∅
  nextPermit : ℕ := 0
  nextBlock : ℕ := 0
  missingUnit : Bool := false

namespace Ledger

variable {Key : Type} [DecidableEq Key] (chargeSize : ℕ → Option ℕ)

/-- The owners of permit `p` among the blocks. -/
def holders (s : Ledger Key) (p : ℕ) : ℕ :=
  Table.total (fun _ b => if b.permit = p ∧ b.Holds then 1 else 0) s.blocks

/-- `weak_ptr::expired()` of permit `p`: it has no owner. -/
def Expired (s : Ledger Key) (p : ℕ) : Prop :=
  ∀ x ∈ s.permits.lookup p, x.handle = false ∧ s.holders p = 0

instance (s : Ledger Key) (p : ℕ) : Decidable (s.Expired p) :=
  inferInstanceAs (Decidable (∀ x ∈ s.permits.lookup p, _))

def setUnit (s : Ledger Key) (k : Key) (u : UnitAccount) : Ledger Key :=
  { s with units := s.units.insert k u }

def setPermit (s : Ledger Key) (p : ℕ) (x : PermitState Key) : Ledger Key :=
  { s with permits := s.permits.insert p x }

def setBlock (s : Ledger Key) (i : ℕ) (b : Block Key) : Ledger Key :=
  { s with blocks := s.blocks.insert i b }

/-- `erase_retired(ledger, key)` (lines 133–142). -/
def eraseRetired (s : Ledger Key) (k : Key) : Ledger Key :=
  match s.units.lookup k with
  | some u =>
    if u.retired = true ∧ u.retained = 0 ∧ ∀ p ∈ u.permit, s.Expired p then
      { s with registered := s.registered - u.retainedLimit, units := s.units.erase k }
    else s
  | none => s

/-- `ledger_state::register_unit(key, limit)` (lines 120–130), or `none` when it
    throws and leaves the ledger as it was. -/
def registerUnit (s : Ledger Key) (k : Key) (limit : ℕ) : Option (Ledger Key) :=
  match (if limit ≠ 0 ∧ s.grant.isSome then chargeSize limit else some limit) with
  | none => none
  | some charge =>
    if (s.units.lookup k).isSome then none
    else if charge > s.retainedLimit - s.registered then none
    else some { s with
      units := s.units.insert k { retainedLimit := charge }
      registered := s.registered + charge }

/-- `permit_state::attach` and the installation of the permit in its unit
    (lines 149–155, 323–326, 344–348). -/
def attach (s : Ledger Key) (k : Key) (u : UnitAccount) (limit : ℕ) : Ledger Key :=
  { s with
    active := s.active + 1
    permits := s.permits.insert s.nextPermit { key := k, temporaryLimit := limit }
    units := s.units.insert k { u with permit := some s.nextPermit }
    nextPermit := s.nextPermit + 1 }

/-! ## Operations -/

inductive Action (Key : Type) where
  | registerUnit (k : Key) (limit : ℕ)
  | retireUnit (k : Key)
  | acquirePermit (k : Key)
  | tryAcquireUnit (k : Key) (limit : ℕ) (temporaryLimit : Option ℕ)
  | stopPermit (p : ℕ)
  | dropPermit (p : ℕ)
  | destroyPermit (p : ℕ)
  | lockPermit (p : ℕ)
  | allocate (p bytes : ℕ) (retained : Bool)
  | allocated (i : ℕ) (ok : Bool)
  | releaseBlock (i : ℕ)
  | dropBlock (i : ℕ)
  | close
  deriving DecidableEq, Repr

/-- The first section of `allocate_impl(bytes, retained)` (lines 388–418) on a
    permit that has an owner: check the envelope and charge the block. An
    allocation that throws changes only its counter. -/
def startAllocation (s : Ledger Key) (p : ℕ) (x : PermitState Key) (bytes : ℕ) (retained : Bool) :
    Ledger Key :=
  if s.closed = true ∨ x.accepting = false ∨ bytes = 0 then s
  else
    match s.units.lookup x.key with
    | none => { s with missingUnit := true }
    | some u =>
      match (if s.grant.isSome then chargeSize bytes else some 0) with
      | none => { s with exceeded := s.exceeded + 1 }
      | some charge =>
        if charge < bytes ∨ (if retained then charge > u.retainedLimit - u.retained ∨
            charge > s.retainedLimit - s.retained else charge > x.temporaryLimit - x.temporary) then
          { s with exceeded := s.exceeded + 1 }
        else
          let s' := if retained then
            { s.setUnit x.key { u with retained := u.retained + charge } with
              retained := s.retained + charge }
          else s.setPermit p { x with temporary := x.temporary + charge }
          { s'.setBlock s.nextBlock { permit := p, key := x.key, charge, retained } with
            nextBlock := s.nextBlock + 1 }

/-- Give back the charge of a block: `ledger->retained -= charge` and
    `ledger->units.at(key).retained -= charge`, or `permit->temporary -= charge`. -/
def refund (s : Ledger Key) (b : Block Key) : Ledger Key :=
  if b.retained then
    match s.units.lookup b.key with
    | none => { s with missingUnit := true }
    | some u => { s.setUnit b.key { u with retained := u.retained - b.charge } with
        retained := s.retained - b.charge }
  else
    match s.permits.lookup b.permit with
    | none => s
    | some x => s.setPermit b.permit { x with temporary := x.temporary - b.charge }

/-- One step of anybody. `stopPermit` and `dropPermit` are the two halves of
    `w_permit::release`, `destroyPermit` is `~permit_state`, `lockPermit` is
    `state_.lock()` of `allocate_impl`, whose frame then owns the permit until
    its `dropBlock`, `allocated` the end of `allocate_impl` (the backing has
    answered), `releaseBlock` is `~allocation_owner`, and `dropBlock` the end of an
    owner that has given its charge back. -/
def step (s : Ledger Key) : Action Key → Option (Ledger Key)
  | .registerUnit k limit =>
    if s.closed then some s else some ((s.registerUnit chargeSize k limit).getD s)
  | .retireUnit k =>
    match s.units.lookup k with
    | none => some s
    | some u => some ((s.setUnit k { u with retired := true }).eraseRetired k)
  | .acquirePermit k =>
    if s.closed = true ∨ s.active = s.permitLimit then some s
    else
      match s.units.lookup k with
      | none => some s
      | some u =>
        if u.retired = true ∨ ¬∀ p ∈ u.permit, s.Expired p then some s
        else some (s.attach k u s.w)
  | .tryAcquireUnit k limit temporaryLimit =>
    if s.closed = true ∨ s.active = s.permitLimit ∨ temporaryLimit.getD s.w > s.w then some s
    else
      match s.registerUnit chargeSize k limit with
      | none => some s
      | some s' =>
        match s'.units.lookup k with
        | none => some s'
        | some u => some (s'.attach k u (temporaryLimit.getD s.w))
  | .stopPermit p =>
    match s.permits.lookup p with
    | some x => if x.handle then some (s.setPermit p { x with accepting := false }) else none
    | none => none
  | .dropPermit p =>
    match s.permits.lookup p with
    | some x =>
      if x.handle = true ∧ x.accepting = false then
        some (s.setPermit p { x with handle := false })
      else none
    | none => none
  | .destroyPermit p =>
    match s.permits.lookup p with
    | some x =>
      if s.Expired p then
        some (Ledger.eraseRetired
          { s with permits := s.permits.erase p, active := s.active - 1 } x.key)
      else none
    | none => none
  | .lockPermit p =>
    match s.permits.lookup p with
    | some x =>
      if s.Expired p then some s
      else some { s.setBlock s.nextBlock
          { permit := p, key := x.key, charge := 0, retained := false, stage := .freed } with
        nextBlock := s.nextBlock + 1 }
    | none => some s
  | .allocate p bytes retained =>
    match s.permits.lookup p with
    | some x => if s.Expired p then some s else some (s.startAllocation chargeSize p x bytes retained)
    | none => some s
  | .allocated i ok =>
    match s.blocks.lookup i with
    | some b =>
      if b.stage = .pending then
        if ok then some (s.setBlock i { b with stage := .live })
        else some { (s.refund b).setBlock i { b with stage := .freed } with
          allocationFailures := s.allocationFailures + 1 }
      else none
    | none => none
  | .releaseBlock i =>
    match s.blocks.lookup i with
    | some b =>
      if b.stage = .live then
        if b.retained then
          some (Ledger.eraseRetired { s.refund b with blocks := s.blocks.erase i } b.key)
        else some ((s.refund b).setBlock i { b with stage := .freed })
      else none
    | none => none
  | .dropBlock i =>
    match s.blocks.lookup i with
    | some b => if b.stage = .freed then some { s with blocks := s.blocks.erase i } else none
    | none => none
  | .close => some { s with closed := true }

end Ledger

end Sirius.ScanManager
