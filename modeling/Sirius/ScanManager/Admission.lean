import Sirius.ScanManager.PreparationLedger

/-!
# Admission

Model of `preparation_ledger::admit` (`src/scan_manager/preparation_ledger.cpp`,
lines 191–276). It sums up the envelopes of the scans, asks the provider for
enough bytes for every retained limit and `permits` permits of `w` bytes each,
and on a refusal or a short grant asks again for half as many permits, down to
the number that lets every scan make progress.

The provider is a parameter: `request i bytes` is its answer to the `i`-th
request, where `none` is a refusal or a `bad_alloc`.

* `admit_covers`: an admitted ledger has a grant that covers the retained limit
  and `w` bytes for every permit.
-/

namespace Sirius.ScanManager

/-! ## Checked arithmetic -/

/-- What `admit` throws or catches. -/
inductive Thrown where
  | overflow | invalidArgument | logicError
  deriving DecidableEq, Repr

def maxU64 : ℕ := 2 ^ 64 - 1

/-- `add(a, b)` (lines 31–36). -/
def add (a b : ℕ) : Except Thrown ℕ := if b > maxU64 - a then .error .overflow else .ok (a + b)

/-- `round(n, quantum)` (lines 37–41). -/
def round (n quantum : ℕ) : Except Thrown ℕ := do
  if quantum = 0 then throw .invalidArgument
  if n = 0 then return 0
  let top ← add n (quantum - 1)
  return top / quantum * quantum

/-! ## Envelopes -/

/-- `unit_envelope`. -/
structure UnitEnvelope where
  temporary : List ℕ
  retained : ℕ := 0
  deriving DecidableEq, Repr

/-- `unit_envelope::temporary_charge(quantum)` (lines 79–85). -/
def UnitEnvelope.temporaryCharge (u : UnitEnvelope) (quantum : ℕ) : Except Thrown ℕ :=
  u.temporary.foldlM (fun total bytes => do add total (← round bytes quantum)) 0

/-- `scan_envelope`. -/
structure ScanEnvelope where
  units : List UnitEnvelope
  retained : List ℕ := []
  qualified : Bool := false
  minimumPermits : ℕ := 0
  deriving DecidableEq, Repr

inductive ScanEligibility where
  | eligible | legacyV2 | legacyMixed | legacyAdmission
  deriving DecidableEq, Repr

inductive AdmissionReason where
  | admitted | unqualified | overflow | statementDvLimit | noGrant | shortGrant | capacity
  deriving DecidableEq, Repr

/-- `admission_decision`. -/
structure AdmissionDecision where
  deferred : Bool := false
  sigmaRetained : ℕ := 0
  w : ℕ := 0
  cObtained : ℕ := 0
  allocationGranularity : ℕ := 0
  cRequested : ℕ := 0
  nPermits : ℕ := 0
  routeReason : ScanEligibility := .legacyAdmission
  reason : AdmissionReason := .unqualified
  deriving DecidableEq, Repr

/-- The decision and the locals of the loop over the scans. -/
structure Sums where
  d : AdmissionDecision
  units : ℕ := 0
  minimumPermits : ℕ := 0
  releasingUnits : Bool := false
  deriving DecidableEq, Repr

/-- The sums are kept when an exception leaves the loop. -/
abbrev SumM := ExceptT Thrown (StateM Sums)

/-- `d.sigma_retained = add(d.sigma_retained, round(bytes, quantum))`. -/
def addRetained (quantum bytes : ℕ) : SumM Unit := do
  let x ← get
  let sigma ← liftM (m := Except Thrown) (do add x.d.sigmaRetained (← round bytes quantum))
  set { x with d := { x.d with sigmaRetained := sigma } }

/-- One unit of a scan (lines 217–222). -/
def addUnit (quantum : ℕ) (u : UnitEnvelope) : SumM Unit := do
  let unitW ← liftM (m := Except Thrown) (u.temporaryCharge quantum)
  let x ← get
  let units ← liftM (m := Except Thrown) (add x.units 1)
  set { x with units := units }
  addRetained quantum u.retained
  modify fun x => { x with d := { x.d with w := max x.d.w unitW } }

/-- The loop over the scans (lines 209–224): `false` when a scan does not
    qualify. -/
def addScans (quantum : ℕ) : List ScanEnvelope → SumM Bool
  | [] => return true
  | scan :: scans => do
    if !scan.qualified then return false
    let x ← get
    let minimumPermits ← liftM (m := Except Thrown) (add x.minimumPermits scan.minimumPermits)
    set { x with
      minimumPermits := minimumPermits
      releasingUnits :=
        x.releasingUnits || (decide (scan.minimumPermits = 0) && !scan.units.isEmpty) }
    scan.retained.forM (addRetained quantum)
    scan.units.forM (addUnit quantum)
    addScans quantum scans

/-! ## Reservation -/

/-- `reservation_grant`; `valid` is `grant->handle && grant->space == space`. -/
structure Grant where
  bytes : ℕ
  valid : Bool := true
  deriving DecidableEq, Repr

/-- The loop over smaller and smaller requests (lines 240–272): the decision, and
    the granted bytes when it ends with `break`. -/
def reserve (request : ℕ → ℕ → Option Grant) (minimum minimumPermits : ℕ) (d : AdmissionDecision)
    (i permits : ℕ) : AdmissionDecision × Option (Option ℕ) :=
  let d := { d with cRequested := d.sigmaRetained + permits * d.w, cObtained := 0 }
  if d.cRequested = 0 then ({ d with nPermits := permits % 2 ^ 32 }, some none)
  else
    match request i d.cRequested with
    | some g =>
      let d := { d with reason := .shortGrant, cObtained := g.bytes }
      if g.valid = true ∧ g.bytes ≥ minimum then
        let n := if d.w ≠ 0 then min permits ((g.bytes - d.sigmaRetained) / d.w) else permits
        ({ d with nPermits := n % 2 ^ 32 }, some (some g.bytes))
      else if g.valid = false then (d, none)
      else if _h : permits ≤ minimumPermits then (d, none)
      else reserve request minimum minimumPermits d (i + 1) (max minimumPermits (permits / 2))
    | none =>
      let d := { d with reason := .noGrant }
      if _h : permits ≤ minimumPermits then (d, none)
      else reserve request minimum minimumPermits d (i + 1) (max minimumPermits (permits / 2))
termination_by permits
decreasing_by all_goals omega

/-- After the loop over the scans (lines 225–283). -/
def admitSums (Key : Type) (request : ℕ → ℕ → Option Grant) (maxPermits : ℕ) (x : Sums) :
    AdmissionDecision × Option (Ledger Key) :=
  match (if x.releasingUnits then add x.minimumPermits 1 else .ok x.minimumPermits) with
  | .error _ => ({ x.d with reason := .overflow }, none)
  | .ok minimumPermits =>
    if minimumPermits > maxPermits ∨ minimumPermits > x.units then
      ({ x.d with reason := .capacity }, none)
    else
      let minimumPermits := max 1 minimumPermits
      if x.d.w > (maxU64 - x.d.sigmaRetained) / minimumPermits then
        ({ x.d with reason := .overflow }, none)
      else
        let minimum := x.d.sigmaRetained + minimumPermits * x.d.w
        let permits := min x.units maxPermits
        let permits :=
          if x.d.w ≠ 0 then min permits ((maxU64 - x.d.sigmaRetained) / x.d.w) else permits
        match reserve request minimum minimumPermits x.d 0 permits with
        | (d, none) => (d, none)
        | (d, some grant) =>
          ({ d with deferred := true, routeReason := .eligible, reason := .admitted },
            some {
              grant
              retainedLimit := d.sigmaRetained
              w := d.w
              permitLimit := d.nPermits })

/-- `preparation_ledger::admit(scans, space, max_permits)` (lines 191–289).
    `admitted` is `admitted_`, `host` is `space.tier == HOST`, and `quantum` is
    `allocation_granularity(space)`. -/
def admitScans (Key : Type) (request : ℕ → ℕ → Option Grant) (admitted host : Bool) (quantum : ℕ)
    (scans : List ScanEnvelope) (maxPermits : ℕ) :
    Except Thrown (AdmissionDecision × Option (Ledger Key)) :=
  if admitted then .error .logicError
  else if !host then .error .invalidArgument
  else if maxPermits = 0 then .error .invalidArgument
  else
    match (addScans quantum scans).run.run { d := { allocationGranularity := quantum } } with
    | (.error .overflow, x) => .ok ({ x.d with reason := .overflow }, none)
    | (.error e, _) => .error e
    | (.ok false, x) => .ok (x.d, none)
    | (.ok true, x) => .ok (admitSums Key request maxPermits x)

/-! ## What a grant covers -/

theorem mul_le_of_min_div {n permits bytes sigma w : ℕ} (hs : sigma ≤ bytes)
    (hn : n ≤ min permits ((bytes - sigma) / w)) : sigma + n * w ≤ bytes := by
  have h1 : n * w ≤ (bytes - sigma) / w * w := Nat.mul_le_mul_right w (hn.trans (min_le_right _ _))
  have h2 := Nat.div_mul_le_self (bytes - sigma) w
  omega

/-- The reservation covers `sigma_retained` and `w` bytes for each permit. -/
theorem reserve_covers {request : ℕ → ℕ → Option Grant} {minimum minimumPermits : ℕ}
    {d d' : AdmissionDecision} {i permits : ℕ} {grant : Option ℕ}
    (hmin : d.sigmaRetained ≤ minimum)
    (h : reserve request minimum minimumPermits d i permits = (d', some grant)) :
    d'.sigmaRetained + d'.nPermits * d'.w ≤ grant.getD 0 := by
  induction permits using Nat.strong_induction_on generalizing d i with
  | _ permits ih =>
    rw [reserve] at h
    dsimp only at h
    split at h
    · -- nothing to reserve: both terms are zero
      rename_i hzero
      obtain ⟨rfl, hg⟩ := Prod.mk.inj h
      cases hg
      obtain ⟨h1, h2⟩ := Nat.add_eq_zero_iff.mp hzero
      have hle : permits % 2 ^ 32 * d.w ≤ permits * d.w :=
        Nat.mul_le_mul_right _ (Nat.mod_le _ _)
      simp only [Option.getD_none]
      omega
    split at h
    · rename_i g hg
      split_ifs at h with hvalid hw hbad hlast
      · obtain ⟨rfl, hgrant⟩ := Prod.mk.inj h
        cases hgrant
        exact mul_le_of_min_div (hmin.trans hvalid.2) (Nat.mod_le _ _)
      · obtain ⟨rfl, hgrant⟩ := Prod.mk.inj h
        cases hgrant
        simp only [ne_eq, not_not] at hw
        simp only [hw, Nat.mul_zero, Nat.add_zero, Option.getD_some]
        exact hmin.trans hvalid.2
      · cases h
      · cases h
      · refine ih (max minimumPermits (permits / 2)) (by omega) ?_ h
        exact hmin
    · split_ifs at h with hlast
      · cases h
      · refine ih (max minimumPermits (permits / 2)) (by omega) ?_ h
        exact hmin

variable {Key : Type}

/-- A ledger right after admission: nothing is registered, charged or active. -/
structure Ledger.Fresh (s : Ledger Key) : Prop where
  registered : s.registered = 0
  retained : s.retained = 0
  active : s.active = 0
  units : s.units = ∅
  permits : s.permits = ∅
  blocks : s.blocks = ∅
  missingUnit : s.missingUnit = false

/-- **An admitted ledger covers its limits.** -/
theorem admit_covers {request : ℕ → ℕ → Option Grant} {admitted host : Bool}
    {quantum maxPermits : ℕ} {scans : List ScanEnvelope} {d : AdmissionDecision} {s : Ledger Key}
    (h : admitScans Key request admitted host quantum scans maxPermits = .ok (d, some s)) :
    s.Fresh ∧ s.retainedLimit = d.sigmaRetained ∧ s.w = d.w ∧ s.permitLimit = d.nPermits ∧
      d.sigmaRetained + d.nPermits * d.w ≤ s.grant.getD 0 := by
  unfold admitScans at h
  split_ifs at h
  split at h
  · cases h
  · cases h
  · cases h
  · rename_i x hx
    simp only [Except.ok.injEq, admitSums] at h
    split at h
    · cases h
    · split at h
      · cases h
      split at h
      · cases h
      split at h
      · cases h
      · rename_i d' grant hres
        cases h
        have hcover := reserve_covers (Nat.le_add_right _ _) hres
        exact ⟨⟨rfl, rfl, rfl, rfl, rfl, rfl, rfl⟩, rfl, rfl, rfl, hcover⟩

/-- Two scans of one unit each share one permit. -/
theorem admit_two_scans :
    admitScans ℕ (fun _ bytes => some { bytes }) false true 64
      [{ units := [{ temporary := [100], retained := 10 }], qualified := true },
        { units := [{ temporary := [20] }], qualified := true }] 1 =
    .ok ({
        deferred := true
        sigmaRetained := 64
        w := 128
        cObtained := 192
        allocationGranularity := 64
        cRequested := 192
        nPermits := 1
        routeReason := .eligible
        reason := .admitted },
      some { grant := some 192, retainedLimit := 64, w := 128, permitLimit := 1 }) := by
  have h : (addScans 64
      [{ units := [{ temporary := [100], retained := 10 }], qualified := true },
        { units := [{ temporary := [20] }], qualified := true }]).run.run
        { d := { allocationGranularity := 64 } } =
      (.ok true, {
        d := { allocationGranularity := 64, sigmaRetained := 64, w := 128 }
        units := 2
        releasingUnits := true }) := rfl
  simp only [admitScans, Bool.false_eq_true, if_false, h, Bool.not_true, one_ne_zero]
  simp [admitSums, reserve, maxU64, add]

end Sirius.ScanManager
