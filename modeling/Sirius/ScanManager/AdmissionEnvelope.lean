import Sirius.ScanManager.Admission
import Sirius.Common.Checked

/-!
# What admission reserves

`preparation_ledger::admit` (src/scan_manager/preparation_ledger.cpp:191-289) against
unbounded arithmetic and against the provider's side of the conversation.

* `Envelope`: what the scans need, in unbounded integers.
* `addScans_envelope`: the checked 64-bit sums are those numbers.
* `reserveLog`: the reservation loop with the grants it obtains and releases.
* `admit_reserves`: what an admission has reserved, whether it defers or not.
-/

namespace Sirius.ScanManager

open Sirius.Common

/-! ## The true envelope -/

/-- `n` rounded up to a multiple of the granularity, in unbounded integers. -/
def roundUp (quantum n : ℕ) : ℕ := n ⌈/⌉ quantum * quantum

/-- The temporary bytes of a unit, each block rounded on its own. -/
def UnitEnvelope.trueTemporary (quantum : ℕ) (u : UnitEnvelope) : ℕ :=
  (u.temporary.map (roundUp quantum)).sum

/-- The retained bytes of a scan and of its units. -/
def ScanEnvelope.trueRetained (quantum : ℕ) (scan : ScanEnvelope) : ℕ :=
  (scan.retained.map (roundUp quantum)).sum +
    (scan.units.map fun u => roundUp quantum u.retained).sum

/-- A unit of the scan gives its permit back before it waits. -/
def ScanEnvelope.Releasing (scan : ScanEnvelope) : Prop :=
  scan.minimumPermits = 0 ∧ scan.units ≠ []

instance (scan : ScanEnvelope) : Decidable scan.Releasing := inferInstanceAs (Decidable (_ ∧ _))

/-- What a list of scans needs. -/
structure Envelope where
  units : ℕ
  retained : ℕ
  temporary : ℕ
  minimumPermits : ℕ
  deriving DecidableEq, Repr

/-- The number of units, the retained bytes, the temporary bytes of the widest unit, and the
    permits without which the scans can wait for each other. -/
def trueEnvelope (quantum : ℕ) (scans : List ScanEnvelope) : Envelope where
  units := (scans.flatMap (·.units)).length
  retained := (scans.map (·.trueRetained quantum)).sum
  temporary := ((scans.flatMap (·.units)).map (·.trueTemporary quantum)).foldr max 0
  minimumPermits := (scans.map (·.minimumPermits)).sum +
    if ∃ scan ∈ scans, scan.Releasing then 1 else 0

/-! ## The sums -/

theorem add_eq_ok {a b n : ℕ} : add a b = .ok n ↔ b ≤ maxU64 - a ∧ n = a + b := by
  unfold add
  split_ifs with h
  · simp only [false_iff, not_and]
    omega
  · simp only [Except.ok.injEq]
    omega

/-- The checked rounding is the unbounded one. -/
theorem round_eq {n quantum m : ℕ} (h : round n quantum = .ok m) : m = roundUp quantum n := by
  unfold round at h
  by_cases hq : quantum = 0
  · simp [hq, throw, throwThe, MonadExceptOf.throw, bind, Except.bind] at h
  by_cases hn : n = 0
  · simp only [hq, if_false, hn, if_true] at h
    obtain ⟨rfl⟩ := h
    simp [roundUp, hn]
  · simp only [hq, if_false, hn] at h
    obtain ⟨top, htop, hm⟩ := bind_eq_ok.mp h
    obtain rfl := pure_eq_ok.mp hm
    rw [roundUp, Nat.ceilDiv_eq_add_pred_div, (add_eq_ok.mp htop).2,
      Nat.add_sub_assoc (by omega)]

theorem temporaryCharge_eq {u : UnitEnvelope} {quantum m : ℕ}
    (h : u.temporaryCharge quantum = .ok m) : m = u.trueTemporary quantum := by
  unfold UnitEnvelope.temporaryCharge at h
  have hfold : ∀ (sizes : List ℕ) (total : ℕ), sizes.foldlM (fun total bytes => do
      add total (← round bytes quantum)) total = .ok m →
      m = total + (sizes.map (roundUp quantum)).sum := by
    intro sizes
    induction sizes with
    | nil =>
      intro total h
      obtain ⟨rfl⟩ := h
      rfl
    | cons n sizes ih =>
      intro total h
      rw [List.foldlM_cons, bind_eq_ok] at h
      obtain ⟨total', hadd, hrest⟩ := h
      obtain ⟨rounded, hround, hadd⟩ := bind_eq_ok.mp hadd
      rw [ih total' hrest, (add_eq_ok.mp hadd).2, round_eq hround, List.map_cons, List.sum_cons,
        Nat.add_assoc]
  rw [hfold u.temporary 0 h, Nat.zero_add, UnitEnvelope.trueTemporary]

variable {α β : Type}

theorem run_bind (x : SumM α) (f : α → SumM β) (s : Sums) :
    (x >>= f).run.run s = match x.run.run s with
      | (.ok a, s₁) => (f a).run.run s₁
      | (.error e, s₁) => (.error e, s₁) := by
  rw [ExceptT.run_bind, StateT.run_bind]
  rcases x.run.run s with ⟨_ | a, s₁⟩ <;> rfl

variable {s s' x y : Sums}

/-- A step of the loop that did not throw. -/
theorem run_bind_ok {x : SumM α} {f : α → SumM β} {b : β} :
    (x >>= f).run.run s = (.ok b, s') ↔
      ∃ a s₁, x.run.run s = (.ok a, s₁) ∧ (f a).run.run s₁ = (.ok b, s') := by
  rw [run_bind]
  rcases x.run.run s with ⟨_ | a, s₁⟩
  · constructor
    · rintro ⟨⟩
    · rintro ⟨_, _, ⟨⟩, _⟩
  · constructor
    · intro h
      exact ⟨a, s₁, rfl, h⟩
    · rintro ⟨_, _, ⟨rfl⟩, h⟩
      exact h

theorem run_lift_ok {e : Except Thrown α} {a : α} :
    (liftM e : SumM α).run.run s = (.ok a, s') ↔ e = .ok a ∧ s' = s := by
  have hrun : (liftM e : SumM α).run.run s = (e, s) := rfl
  rw [hrun]
  constructor
  · rintro ⟨⟩
    exact ⟨rfl, rfl⟩
  · rintro ⟨rfl, rfl⟩
    rfl

theorem run_get_ok {s s' a : Sums} : (get : SumM Sums).run.run s = (.ok a, s') ↔ a = s ∧ s' = s := by
  have hrun : (get : SumM Sums).run.run s = (.ok s, s) := rfl
  rw [hrun]
  constructor
  · rintro ⟨⟩
    exact ⟨rfl, rfl⟩
  · rintro ⟨rfl, rfl⟩
    rfl

theorem run_set_ok {s s' t : Sums} {u : PUnit} :
    (set t : SumM PUnit).run.run s = (.ok u, s') ↔ s' = t := by
  have hrun : (set t : SumM PUnit).run.run s = (.ok ⟨⟩, t) := rfl
  rw [hrun]
  constructor
  · rintro ⟨⟩
    rfl
  · rintro rfl
    rfl

theorem run_modify_ok {f : Sums → Sums} {u : PUnit} :
    (modify f : SumM PUnit).run.run s = (.ok u, s') ↔ s' = f s := by
  have hrun : (modify f : SumM PUnit).run.run s = (.ok ⟨⟩, f s) := rfl
  rw [hrun]
  constructor
  · rintro ⟨⟩
    rfl
  · rintro rfl
    rfl

theorem addRetained_ok {quantum bytes : ℕ} {u : Unit}
    (h : (addRetained quantum bytes).run.run x = (.ok u, y)) :
    y = { x with d := { x.d with sigmaRetained := x.d.sigmaRetained + roundUp quantum bytes } } := by
  simp only [addRetained, run_bind_ok, run_get_ok, run_lift_ok, run_set_ok] at h
  obtain ⟨_, _, ⟨rfl, rfl⟩, sigma, _, ⟨hsigma, rfl⟩, rfl⟩ := h
  obtain ⟨rounded, hround, hadd⟩ := bind_eq_ok.mp hsigma
  rw [(add_eq_ok.mp hadd).2, round_eq hround]

variable {quantum : ℕ}

/-- One unit more. -/
theorem addUnit_ok {unit : UnitEnvelope} {u : Unit}
    (h : (addUnit quantum unit).run.run x = (.ok u, y)) :
    y = { x with
      units := x.units + 1
      d := { x.d with
        sigmaRetained := x.d.sigmaRetained + roundUp quantum unit.retained
        w := max x.d.w (unit.trueTemporary quantum) } } := by
  simp only [addUnit, run_bind_ok, run_get_ok, run_lift_ok, run_set_ok, run_modify_ok] at h
  obtain ⟨unitW, _, ⟨hw, rfl⟩, _, _, ⟨rfl, rfl⟩, units, _, ⟨hunits, rfl⟩, _, _, rfl, _, _,
    hretained, rfl⟩ := h
  rw [addRetained_ok hretained, (add_eq_ok.mp hunits).2, temporaryCharge_eq hw]

/-- The retained blocks of a scan. -/
theorem forM_addRetained_ok {sizes : List ℕ} {u : PUnit}
    (h : (sizes.forM (addRetained quantum)).run.run x = (.ok u, y)) : y = { x with d := { x.d with
      sigmaRetained := x.d.sigmaRetained + (sizes.map (roundUp quantum)).sum } } := by
  induction sizes generalizing x with
  | nil =>
    have hy : x = y := congrArg Prod.snd h
    rw [← hy]
    rfl
  | cons n sizes ih =>
    obtain ⟨_, x₁, hfirst, hrest⟩ := run_bind_ok.mp h
    rw [ih hrest, addRetained_ok hfirst, List.map_cons, List.sum_cons, Nat.add_assoc]

theorem forM_addUnit_ok {units : List UnitEnvelope} {u : PUnit}
    (h : (units.forM (addUnit quantum)).run.run x = (.ok u, y)) :
    y = { x with
      units := x.units + units.length
      d := { x.d with
        sigmaRetained := x.d.sigmaRetained + (units.map fun u => roundUp quantum u.retained).sum
        w := max x.d.w ((units.map (·.trueTemporary quantum)).foldr max 0) } } := by
  induction units generalizing x with
  | nil =>
    have hy : x = y := congrArg Prod.snd h
    rw [← hy]
    simp
  | cons unit units ih =>
    obtain ⟨_, x₁, hfirst, hrest⟩ := run_bind_ok.mp h
    rw [ih hrest, addUnit_ok hfirst]
    simp only [List.map_cons, List.sum_cons, List.foldr_cons, List.length_cons, Nat.add_assoc,
      Nat.add_comm 1, max_assoc]

/-- The sums after the loop over the scans. -/
def Sums.after (x : Sums) (quantum : ℕ) (scans : List ScanEnvelope) : Sums :=
  { x with
    units := x.units + (trueEnvelope quantum scans).units
    minimumPermits := x.minimumPermits + (scans.map (·.minimumPermits)).sum
    releasingUnits := x.releasingUnits || scans.any fun scan => decide scan.Releasing
    d := { x.d with
      sigmaRetained := x.d.sigmaRetained + (trueEnvelope quantum scans).retained
      w := max x.d.w (trueEnvelope quantum scans).temporary } }

theorem foldr_max_append (l₁ l₂ : List ℕ) :
    (l₁ ++ l₂).foldr max 0 = max (l₁.foldr max 0) (l₂.foldr max 0) := by
  induction l₁ with
  | nil => simp
  | cons n l₁ ih => rw [List.cons_append, List.foldr_cons, List.foldr_cons, ih, max_assoc]

theorem releasing_eq (scan : ScanEnvelope) :
    decide scan.Releasing = (decide (scan.minimumPermits = 0) && !scan.units.isEmpty) := by
  rw [Bool.eq_iff_iff, decide_eq_true_iff]
  simp [ScanEnvelope.Releasing]

variable {scans : List ScanEnvelope}

/-- The checked 64-bit sums are the sums in unbounded integers. -/
theorem addScans_envelope
    (h : (addScans quantum scans).run.run x = (.ok true, y)) : y = x.after quantum scans := by
  induction scans generalizing x with
  | nil =>
    have hy : x = y := congrArg Prod.snd h
    rw [← hy]
    simp [Sums.after, trueEnvelope]
  | cons scan scans ih =>
    rw [addScans] at h
    by_cases hq : scan.qualified = true
    · simp only [hq, Bool.not_true, Bool.false_eq_true, if_false] at h
      simp only [run_bind_ok, run_get_ok, run_lift_ok, run_set_ok] at h
      obtain ⟨_, _, ⟨rfl, rfl⟩, minimumPermits, _, ⟨hminimum, rfl⟩, _, _, rfl, _, x₁, hretained, _,
        x₂, hunits, hrest⟩ := h
      rw [ih hrest, forM_addUnit_ok hunits, forM_addRetained_ok hretained,
        (add_eq_ok.mp hminimum).2]
      simp only [Sums.after, trueEnvelope, ScanEnvelope.trueRetained, releasing_eq,
        List.flatMap_cons, List.map_append, foldr_max_append, List.length_append, List.map_cons,
        List.sum_cons, List.any_cons, Nat.add_assoc, max_assoc, Bool.or_assoc]
    · simp only [hq, Bool.not_false, if_true] at h
      have hfalse : (Except.ok false : Except Thrown Bool) = .ok true := congrArg Prod.fst h
      cases hfalse

/-- `deferred` is not touched, also where the loop throws. -/
def KeepsDeferred {α : Type} (m : SumM α) : Prop :=
  ∀ x, (m.run.run x).2.d.deferred = x.d.deferred

theorem KeepsDeferred.bind {m : SumM α} {f : α → SumM β} (hm : KeepsDeferred m)
    (hf : ∀ a, KeepsDeferred (f a)) : KeepsDeferred (m >>= f) := by
  intro x
  rw [run_bind]
  have hx := hm x
  rcases hrun : m.run.run x with ⟨_ | a, x₁⟩
  · rw [hrun] at hx
    exact hx
  · rw [hrun] at hx
    exact (hf a x₁).trans hx

/-- A read of the sums, a computation on them, and a write of the sums it gives. -/
theorem KeepsDeferred.update {e : Sums → Except Thrown α} {g : Sums → α → Sums}
    (hg : ∀ x a, (g x a).d.deferred = x.d.deferred) :
    KeepsDeferred (do
      let x ← get
      let a ← liftM (m := Except Thrown) (e x)
      set (g x a)) := by
  intro x
  have hget : (get : SumM Sums).run.run x = (.ok x, x) := rfl
  have hlift : (liftM (e x) : SumM α).run.run x = (e x, x) := rfl
  rw [run_bind, hget]
  dsimp only
  rw [run_bind, hlift]
  cases e x with
  | error error => rfl
  | ok a => exact hg x a

theorem KeepsDeferred.forM {f : α → SumM PUnit} (hf : ∀ a, KeepsDeferred (f a))
    (as : List α) : KeepsDeferred (as.forM f) := by
  induction as with
  | nil => exact fun _ => rfl
  | cons a as ih => exact (hf a).bind fun _ => ih

theorem addRetained_deferred (quantum bytes : ℕ) : KeepsDeferred (addRetained quantum bytes) :=
  .update fun _ _ => rfl

theorem addUnit_deferred (quantum : ℕ) (u : UnitEnvelope) : KeepsDeferred (addUnit quantum u) := by
  have hlift : KeepsDeferred (liftM (u.temporaryCharge quantum) : SumM ℕ) := fun _ => rfl
  refine hlift.bind fun unitW => ?_
  have hunits : KeepsDeferred (do
      let x ← get
      let units ← liftM (m := Except Thrown) (add x.units 1)
      set { x with units := units } : SumM PUnit) := .update fun _ _ => rfl
  have hmax : KeepsDeferred
      (modify fun x => { x with d := { x.d with w := max x.d.w unitW } } : SumM PUnit) :=
    fun _ => rfl
  have hall := hunits.bind fun _ => (addRetained_deferred quantum u.retained).bind fun _ => hmax
  simpa only [bind_assoc] using hall

theorem addScans_deferred (quantum : ℕ) (scans : List ScanEnvelope) :
    KeepsDeferred (addScans quantum scans) := by
  induction scans with
  | nil => exact fun _ => rfl
  | cons scan scans ih =>
    rw [addScans]
    split_ifs
    · exact fun _ => rfl
    have hminimum : KeepsDeferred (do
        let x ← get
        let minimumPermits ← liftM (m := Except Thrown) (add x.minimumPermits scan.minimumPermits)
        set { x with
          minimumPermits := minimumPermits
          releasingUnits :=
            x.releasingUnits || (decide (scan.minimumPermits = 0) && !scan.units.isEmpty) } :
        SumM PUnit) := .update fun _ _ => rfl
    have hall := hminimum.bind fun _ =>
      (KeepsDeferred.forM (addRetained_deferred quantum) scan.retained).bind fun _ =>
        (KeepsDeferred.forM (addUnit_deferred quantum) scan.units).bind fun _ => ih
    simpa only [bind_assoc] using hall

/-! ## The provider's side -/

/-- What the provider sees: a request, a grant it gives, a grant that comes back. -/
inductive ProviderEvent where
  | requested (bytes : ℕ)
  | obtained (g : Grant)
  | released (g : Grant)
  deriving DecidableEq, Repr

/-- The reservation loop (lines 240–272) with the provider's events. -/
def reserveLog (request : ℕ → ℕ → Option Grant) (minimum minimumPermits : ℕ)
    (d : AdmissionDecision) (i permits : ℕ) :
    (AdmissionDecision × Option (Option ℕ)) × List ProviderEvent :=
  let d := { d with cRequested := d.sigmaRetained + permits * d.w, cObtained := 0 }
  if d.cRequested = 0 then (({ d with nPermits := permits % 2 ^ 32 }, some none), [])
  else
    match request i d.cRequested with
    | some g =>
      let d := { d with reason := .shortGrant, cObtained := g.bytes }
      if g.valid = true ∧ g.bytes ≥ minimum then
        let n := if d.w ≠ 0 then min permits ((g.bytes - d.sigmaRetained) / d.w) else permits
        (({ d with nPermits := n % 2 ^ 32 }, some (some g.bytes)),
          [.requested d.cRequested, .obtained g])
      else if g.valid = false then
        ((d, none), [.requested d.cRequested, .obtained g, .released g])
      else if _h : permits ≤ minimumPermits then
        ((d, none), [.requested d.cRequested, .obtained g, .released g])
      else
        let (r, events) :=
          reserveLog request minimum minimumPermits d (i + 1) (max minimumPermits (permits / 2))
        (r, .requested d.cRequested :: .obtained g :: .released g :: events)
    | none =>
      let d := { d with reason := .noGrant }
      if _h : permits ≤ minimumPermits then ((d, none), [.requested d.cRequested])
      else
        let (r, events) :=
          reserveLog request minimum minimumPermits d (i + 1) (max minimumPermits (permits / 2))
        (r, .requested d.cRequested :: events)
termination_by permits
decreasing_by all_goals omega

/-- The grants that were given. -/
def obtained (events : List ProviderEvent) : List Grant :=
  events.filterMap fun
    | .obtained g => some g
    | _ => none

/-- The grants that came back. -/
def released (events : List ProviderEvent) : List Grant :=
  events.filterMap fun
    | .released g => some g
    | _ => none

/-- The requests that were made. -/
def requested (events : List ProviderEvent) : List ℕ :=
  events.filterMap fun
    | .requested bytes => some bytes
    | _ => none

/-- What the loop starts from (lines 225–238): the least number of bytes and of permits, and
    the permits of the first request. -/
def startReservation (maxPermits : ℕ) (x : Sums) : Option (ℕ × ℕ × ℕ) :=
  match (if x.releasingUnits then add x.minimumPermits 1 else .ok x.minimumPermits) with
  | .error _ => none
  | .ok minimumPermits =>
    if minimumPermits > maxPermits ∨ minimumPermits > x.units then none
    else if x.d.w > (maxU64 - x.d.sigmaRetained) / max 1 minimumPermits then none
    else
      let permits := min x.units maxPermits
      some (x.d.sigmaRetained + max 1 minimumPermits * x.d.w, max 1 minimumPermits,
        if x.d.w ≠ 0 then min permits ((maxU64 - x.d.sigmaRetained) / x.d.w) else permits)

/-- The provider's events of an admission: there are none before the loop. -/
def providerEvents (request : ℕ → ℕ → Option Grant) (admitted host : Bool) (quantum : ℕ)
    (scans : List ScanEnvelope) (maxPermits : ℕ) : List ProviderEvent :=
  if admitted = true ∨ host = false ∨ maxPermits = 0 then []
  else
    match (addScans quantum scans).run.run { d := { allocationGranularity := quantum } } with
    | (.ok true, x) =>
      match startReservation maxPermits x with
      | some (minimum, minimumPermits, permits) =>
        (reserveLog request minimum minimumPermits x.d 0 permits).2
      | none => []
    | _ => []

section Reserve

variable {request : ℕ → ℕ → Option Grant} {minimum minimumPermits : ℕ}

/-- The loop with its log is the loop. -/
theorem reserveLog_fst (d : AdmissionDecision) (i permits : ℕ) :
    (reserveLog request minimum minimumPermits d i permits).1 =
      reserve request minimum minimumPermits d i permits := by
  induction permits using Nat.strong_induction_on generalizing d i with
  | _ permits ih =>
    rw [reserveLog, reserve]
    dsimp only
    by_cases hzero : d.sigmaRetained + permits * d.w = 0
    · rw [if_pos hzero, if_pos hzero]
    rw [if_neg hzero, if_neg hzero]
    rcases request i (d.sigmaRetained + permits * d.w) with _ | g
    · dsimp only
      split_ifs
      · rfl
      · exact ih (max minimumPermits (permits / 2)) (by omega) _ _
    · dsimp only
      split_ifs
      · rfl
      · rfl
      · rfl
      · rfl
      · exact ih (max minimumPermits (permits / 2)) (by omega) _ _

/-- What is given and not kept comes back. -/
theorem reserveLog_released (d : AdmissionDecision) (i permits : ℕ) :
    ∃ kept : List Grant,
      obtained (reserveLog request minimum minimumPermits d i permits).2 =
        released (reserveLog request minimum minimumPermits d i permits).2 ++ kept ∧
      kept.map (·.bytes) =
        ((reserveLog request minimum minimumPermits d i permits).1.2.bind id).toList := by
  induction permits using Nat.strong_induction_on generalizing d i with
  | _ permits ih =>
    rw [reserveLog]
    dsimp only
    split
    · exact ⟨[], rfl, rfl⟩
    split
    · rename_i g _
      split_ifs
      · exact ⟨[g], rfl, rfl⟩
      · exact ⟨[g], rfl, rfl⟩
      · exact ⟨[], rfl, rfl⟩
      · exact ⟨[], rfl, rfl⟩
      · obtain ⟨kept, hkept, hbytes⟩ := ih (max minimumPermits (permits / 2)) (by omega)
          { d with
            cRequested := d.sigmaRetained + permits * d.w
            reason := .shortGrant
            cObtained := g.bytes } (i + 1)
        exact ⟨kept, congrArg (g :: ·) hkept, hbytes⟩
    · split_ifs
      · exact ⟨[], rfl, rfl⟩
      · exact ih (max minimumPermits (permits / 2)) (by omega) _ _

/-- The work of the loop is logarithmic in the permits. -/
theorem length_requested (d : AdmissionDecision) (i permits : ℕ) :
    (requested (reserveLog request minimum minimumPermits d i permits).2).length ≤
      Nat.log 2 permits + 2 := by
  -- one request where the loop has arrived at the minimum
  have hlast : ∀ (d : AdmissionDecision) (i permits : ℕ), permits ≤ minimumPermits →
      (requested (reserveLog request minimum minimumPermits d i permits).2).length ≤ 1 := by
    intro d i permits hle
    rw [reserveLog]
    dsimp only
    split
    · exact Nat.zero_le 1
    split
    · split_ifs <;> exact le_rfl
    · exact le_rfl
  induction permits using Nat.strong_induction_on generalizing d i with
  | _ permits ih =>
    by_cases hle : permits ≤ minimumPermits
    · exact (hlast d i permits hle).trans (by omega)
    have hnext : ∀ (d : AdmissionDecision) (i : ℕ), (requested (reserveLog request minimum
        minimumPermits d i (max minimumPermits (permits / 2))).2).length ≤
          Nat.log 2 permits + 1 := by
      intro d i
      by_cases hhalf : permits / 2 ≤ minimumPermits
      · rw [max_eq_left hhalf]
        exact (hlast d i minimumPermits le_rfl).trans (by omega)
      · rw [max_eq_right (by omega)]
        have hlog : Nat.log 2 permits = Nat.log 2 (permits / 2) + 1 :=
          Nat.log_of_one_lt_of_le (by omega) (by omega)
        have := ih (permits / 2) (by omega) d i
        omega
    rw [reserveLog]
    dsimp only
    split
    · exact Nat.zero_le _
    split
    · split_ifs
      · exact Nat.succ_le_succ (Nat.zero_le _)
      · exact Nat.succ_le_succ (Nat.zero_le _)
      · exact Nat.succ_le_succ (Nat.zero_le _)
      · exact Nat.succ_le_succ (hnext _ _)
    · exact Nat.succ_le_succ (hnext _ _)

/-- The permits of a reservation lie between the minimum and those of the first request. -/
theorem reserve_permits {d d' : AdmissionDecision} {i permits : ℕ} {grant : Option ℕ}
    (hpermits : permits < 2 ^ 32) (hle : minimumPermits ≤ permits)
    (hminimum : minimum = d.sigmaRetained + minimumPermits * d.w)
    (h : reserve request minimum minimumPermits d i permits = (d', some grant)) :
    minimumPermits ≤ d'.nPermits ∧ d'.nPermits ≤ permits := by
  induction permits using Nat.strong_induction_on generalizing d i with
  | _ permits ih =>
    rw [reserve] at h
    dsimp only at h
    have hnext : ∀ (d₁ : AdmissionDecision), d₁.sigmaRetained = d.sigmaRetained → d₁.w = d.w →
        ¬permits ≤ minimumPermits →
        reserve request minimum minimumPermits d₁ (i + 1) (max minimumPermits (permits / 2)) =
          (d', some grant) →
        minimumPermits ≤ d'.nPermits ∧ d'.nPermits ≤ permits := by
      intro d₁ hsigma hw hgreater hrest
      have := ih (max minimumPermits (permits / 2)) (by omega) (by omega) (by omega)
        (by rw [hsigma, hw]; exact hminimum) hrest
      omega
    split at h
    · obtain ⟨rfl, -⟩ := Prod.mk.inj h
      simp only [Nat.mod_eq_of_lt hpermits]
      omega
    split at h
    · rename_i g _
      split_ifs at h with hvalid hw hbad hlast
      · obtain ⟨rfl, -⟩ := Prod.mk.inj h
        -- the grant has room for the minimum, so the division gives at least as many
        have hroom : minimumPermits ≤ (g.bytes - d.sigmaRetained) / d.w := by
          rw [Nat.le_div_iff_mul_le (Nat.pos_of_ne_zero hw)]
          omega
        have hn : min permits ((g.bytes - d.sigmaRetained) / d.w) < 2 ^ 32 :=
          (min_le_left _ _).trans_lt hpermits
        simp only [Nat.mod_eq_of_lt hn]
        exact ⟨le_min hle hroom, min_le_left _ _⟩
      · obtain ⟨rfl, -⟩ := Prod.mk.inj h
        simp only [Nat.mod_eq_of_lt hpermits]
        omega
      · cases h
      · cases h
      · refine hnext _ ?_ ?_ hlast h <;> rfl
    · split_ifs at h with hlast
      · cases h
      · refine hnext _ ?_ ?_ hlast h <;> rfl

end Reserve

/-! ## Admission -/

theorem admitSums_eq (Key : Type) (request : ℕ → ℕ → Option Grant) (maxPermits : ℕ) (x : Sums) :
    match startReservation maxPermits x with
    | none => (admitSums Key request maxPermits x).1.deferred = x.d.deferred ∧
        (admitSums Key request maxPermits x).2 = none
    | some (minimum, minimumPermits, permits) => admitSums Key request maxPermits x =
        match reserve request minimum minimumPermits x.d 0 permits with
        | (d, none) => (d, none)
        | (d, some grant) =>
          ({ d with deferred := true, routeReason := .eligible, reason := .admitted },
            some {
              grant
              retainedLimit := d.sigmaRetained
              w := d.w
              permitLimit := d.nPermits }) := by
  unfold startReservation admitSums
  rcases (if x.releasingUnits then add x.minimumPermits 1 else .ok x.minimumPermits) with e | m
  · exact ⟨rfl, rfl⟩
  dsimp only
  by_cases hcapacity : m > maxPermits ∨ m > x.units
  · rw [if_pos hcapacity, if_pos hcapacity]
    exact ⟨rfl, rfl⟩
  rw [if_neg hcapacity, if_neg hcapacity]
  by_cases hoverflow : x.d.w > (maxU64 - x.d.sigmaRetained) / max 1 m
  · rw [if_pos hoverflow, if_pos hoverflow]
    exact ⟨rfl, rfl⟩
  rw [if_neg hoverflow]
  exact if_neg hoverflow

/-- A reservation leaves the sums and `deferred` as they were. -/
theorem reserve_keeps {request : ℕ → ℕ → Option Grant} {minimum minimumPermits : ℕ}
    (d : AdmissionDecision) (i permits : ℕ) :
    let d' := (reserve request minimum minimumPermits d i permits).1
    d'.deferred = d.deferred ∧ d'.sigmaRetained = d.sigmaRetained ∧ d'.w = d.w := by
  induction permits using Nat.strong_induction_on generalizing d i with
  | _ permits ih =>
    rw [reserve]
    dsimp only
    split
    · exact ⟨rfl, rfl, rfl⟩
    split
    · split_ifs
      · exact ⟨rfl, rfl, rfl⟩
      · exact ⟨rfl, rfl, rfl⟩
      · exact ⟨rfl, rfl, rfl⟩
      · exact ⟨rfl, rfl, rfl⟩
      · exact ih (max minimumPermits (permits / 2)) (by omega) _ _
    · split_ifs
      · exact ⟨rfl, rfl, rfl⟩
      · exact ih (max minimumPermits (permits / 2)) (by omega) _ _

/-- The loop starts with no more permits than units and `max_permits`, and, if there is a
    unit, with no fewer than the minimum. -/
theorem startReservation_bounds {maxPermits : ℕ} {minimum minimumPermits permits : ℕ}
    (hmax : 0 < maxPermits)
    (h : startReservation maxPermits x = some (minimum, minimumPermits, permits)) :
    minimum = x.d.sigmaRetained + minimumPermits * x.d.w ∧
      x.minimumPermits + (if x.releasingUnits then 1 else 0) ≤ minimumPermits ∧
      permits ≤ x.units ∧ permits ≤ maxPermits ∧ (0 < x.units → minimumPermits ≤ permits) := by
  unfold startReservation at h
  rcases hm : (if x.releasingUnits then add x.minimumPermits 1 else .ok x.minimumPermits) with e | m
  · rw [hm] at h
    cases h
  rw [hm] at h
  dsimp only at h
  have hsum : m = x.minimumPermits + (if x.releasingUnits then 1 else 0) := by
    by_cases hreleasing : x.releasingUnits = true
    · rw [if_pos hreleasing] at hm ⊢
      exact (add_eq_ok.mp hm).2
    · rw [if_neg hreleasing] at hm ⊢
      obtain ⟨rfl⟩ := hm
      rfl
  by_cases hcapacity : m > maxPermits ∨ m > x.units
  · rw [if_pos hcapacity] at h
    cases h
  rw [if_neg hcapacity] at h
  by_cases hoverflow : x.d.w > (maxU64 - x.d.sigmaRetained) / max 1 m
  · rw [if_pos hoverflow] at h
    cases h
  rw [if_neg hoverflow] at h
  simp only [Option.some.injEq, Prod.mk.injEq] at h
  obtain ⟨rfl, rfl, rfl⟩ := h
  have hfits : max 1 m * x.d.w ≤ maxU64 - x.d.sigmaRetained := by
    have := (Nat.le_div_iff_mul_le (show 0 < max 1 m by omega)).mp (not_lt.mp hoverflow)
    rwa [Nat.mul_comm]
  refine ⟨rfl, hsum ▸ le_max_right 1 m, ?_⟩
  by_cases hw : x.d.w = 0
  · simp only [hw, ne_eq, not_true_eq_false, if_false]
    omega
  · simp only [ne_eq, hw, not_false_eq_true, if_true]
    have hroom : max 1 m ≤ (maxU64 - x.d.sigmaRetained) / x.d.w :=
      (Nat.le_div_iff_mul_le (Nat.pos_of_ne_zero hw)).mpr hfits
    omega

/-- The sums of all scans are the true envelope. -/
theorem after_start
    (hx : x = ({ d := { allocationGranularity := quantum } } : Sums).after quantum scans) :
    x.units = (trueEnvelope quantum scans).units ∧
      x.minimumPermits + (if x.releasingUnits then 1 else 0) =
        (trueEnvelope quantum scans).minimumPermits ∧
      x.d.sigmaRetained = (trueEnvelope quantum scans).retained ∧
      x.d.w = (trueEnvelope quantum scans).temporary := by
  subst hx
  simp [Sums.after, trueEnvelope]

/-- What `admit_reserves` says of an admission that returns `d` and `ledger`. -/
structure Reserves {Key : Type} (envelope : Envelope) (maxPermits : ℕ)
    (events : List ProviderEvent) (d : AdmissionDecision) (ledger : Option (Ledger Key)) : Prop where
  requests : (requested events).length ≤ Nat.log 2 maxPermits + 2
  permits : d.deferred = true → 0 < envelope.units →
    envelope.minimumPermits ≤ d.nPermits ∧ d.nPermits ≤ min envelope.units maxPermits
  covers : d.deferred = true → d.sigmaRetained = envelope.retained ∧ d.w = envelope.temporary ∧
    ∃ s ∈ ledger, d.sigmaRetained + d.nPermits * d.w ≤ s.grant.getD 0 ∧
      ∃ kept, obtained events = released events ++ kept ∧ kept.map (·.bytes) = s.grant.toList
  released : d.deferred = false → ledger = none ∧ obtained events = released events

/-- An admission that ends before its loop. -/
theorem Reserves.of_no_events {Key : Type} {envelope : Envelope} {maxPermits : ℕ}
    {events : List ProviderEvent} {d : AdmissionDecision} (hevents : events = [])
    (hd : d.deferred = false) :
    Reserves envelope maxPermits events d (none : Option (Ledger Key)) := by
  subst hevents
  refine ⟨Nat.zero_le _, ?_, ?_, fun _ => ⟨rfl, rfl⟩⟩
  all_goals
    intro hdeferred
    rw [hd] at hdeferred
    cases hdeferred

/-- An admission whose scans all qualify. -/
theorem reserves_of_sums {Key : Type} {request : ℕ → ℕ → Option Grant} {maxPermits : UInt32} {events : List ProviderEvent}
    (hmax : 0 < maxPermits.toNat)
    (hx : x = ({ d := { allocationGranularity := quantum } } : Sums).after quantum scans)
    (hdeferred : x.d.deferred = false)
    (hlog : events = match startReservation maxPermits.toNat x with
      | some (minimum, minimumPermits, permits) =>
        (reserveLog request minimum minimumPermits x.d 0 permits).2
      | none => []) :
    Reserves (trueEnvelope quantum scans) maxPermits.toNat events
      (admitSums Key request maxPermits.toNat x).1
      (admitSums Key request maxPermits.toNat x).2 := by
  have hsums := admitSums_eq Key request maxPermits.toNat x
  rcases hstart : startReservation maxPermits.toNat x with _ | ⟨minimum, minimumPermits, permits⟩
  · rw [hstart] at hsums hlog
    rw [hsums.2]
    exact Reserves.of_no_events hlog (hsums.1.trans hdeferred)
  rw [hstart] at hsums hlog
  dsimp only at hsums hlog
  rw [hsums]
  obtain ⟨hminimum, hprogress, hunits, hpermits, hroom⟩ := startReservation_bounds hmax hstart
  obtain ⟨kept, hkept, hbytes⟩ :=
    @reserveLog_released request minimum minimumPermits x.d 0 permits
  have hrequests := @length_requested request minimum minimumPermits x.d 0 permits
  have hkeeps := @reserve_keeps request minimum minimumPermits x.d 0 permits
  rw [← hlog] at hkept hrequests
  rw [reserveLog_fst] at hbytes
  dsimp only at hkeeps
  have hcount : (requested events).length ≤ Nat.log 2 maxPermits.toNat + 2 :=
    hrequests.trans (Nat.add_le_add_right (Nat.log_mono_right hpermits) 2)
  rcases hr : reserve request minimum minimumPermits x.d 0 permits with ⟨d, _ | grant⟩
  · rw [hr] at hbytes hkeeps
    have hd : d.deferred = false := hkeeps.1.trans hdeferred
    have hnone : kept = [] := List.map_eq_nil_iff.mp hbytes
    refine ⟨hcount, ?_, ?_, fun _ => ⟨rfl, by rw [hkept, hnone, List.append_nil]⟩⟩
    all_goals
      intro htrue
      rw [hd] at htrue
      cases htrue
  · rw [hr] at hbytes hkeeps
    have hlt : permits < 2 ^ 32 := hpermits.trans_lt maxPermits.toNat_lt
    have hcovers := reserve_covers (hminimum ▸ Nat.le_add_right _ _) hr
    obtain ⟨henvelopeUnits, henvelopeMinimum, hretained, htemporary⟩ := after_start hx
    refine ⟨hcount, fun _ hpos => ?_, fun _ => ⟨hkeeps.2.1.trans hretained,
      hkeeps.2.2.trans htemporary, _, rfl, hcovers, kept, hkept, hbytes⟩, nofun⟩
    rw [← henvelopeUnits] at hpos
    obtain ⟨hlow, hhigh⟩ := reserve_permits hlt (hroom hpos) hminimum hr
    rw [← henvelopeMinimum, ← henvelopeUnits]
    exact ⟨hprogress.trans hlow, le_min (hhigh.trans hunits) (hhigh.trans hpermits)⟩

/-- **Admission reserves the true envelope.** For every list of scans, every number of
    permits and every provider, admission ends after at most logarithmically many requests, and:

    * if it defers and there is a unit, it gives a number of permits between the progress
      minimum and the smaller of the units and `max_permits`; its sums are those of
      unbounded integers with every block rounded up, and the grant it keeps has room for
      the retained bytes and for the temporary bytes of every permit;
    * it has released every grant but the one it keeps, and keeps none if it does not defer
      or throws. -/
theorem admit_reserves (Key : Type) (request : ℕ → ℕ → Option Grant) (admitted host : Bool)
    (quantum : ℕ) (scans : List ScanEnvelope) (maxPermits : UInt32) :
    let events := providerEvents request admitted host quantum scans maxPermits.toNat
    match admitScans Key request admitted host quantum scans maxPermits.toNat with
    | .ok (d, ledger) => Reserves (trueEnvelope quantum scans) maxPermits.toNat events d ledger
    | .error _ => events = [] := by
  intro events
  unfold admitScans
  by_cases hguard : admitted = true ∨ host = false ∨ maxPermits.toNat = 0
  · have hevents : events = [] := if_pos hguard
    rcases hguard with hadmitted | hhost | hzero
    · rw [if_pos hadmitted]
      exact hevents
    · split_ifs
      · exact hevents
      · exact hevents
      · exact hevents
      · exact absurd hhost (by simpa using ‹¬(!host) = true›)
    · split_ifs <;> exact hevents
  have hopen : admitted = false ∧ host = true ∧ maxPermits.toNat ≠ 0 := by simpa using hguard
  have hmax : 0 < maxPermits.toNat := Nat.pos_of_ne_zero hopen.2.2
  rw [if_neg (by simp [hopen.1]), if_neg (by simp [hopen.2.1]), if_neg hopen.2.2]
  have hdeferred := addScans_deferred quantum scans { d := { allocationGranularity := quantum } }
  have hlog : events = match (addScans quantum scans).run.run
      { d := { allocationGranularity := quantum } } with
    | (.ok true, x) =>
      match startReservation maxPermits.toNat x with
      | some (minimum, minimumPermits, permits) =>
        (reserveLog request minimum minimumPermits x.d 0 permits).2
      | none => []
    | _ => [] := if_neg hguard
  rcases hx : (addScans quantum scans).run.run { d := { allocationGranularity := quantum } } with
    ⟨e | qualified, x⟩
  · rw [hx] at hdeferred hlog
    cases e with
    | overflow => exact Reserves.of_no_events hlog hdeferred
    | invalidArgument => exact hlog
    | logicError => exact hlog
  rw [hx] at hdeferred hlog
  cases qualified with
  | false => exact Reserves.of_no_events hlog hdeferred
  | true => exact reserves_of_sums hmax (addScans_envelope hx) hdeferred hlog

end Sirius.ScanManager
