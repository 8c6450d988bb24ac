import Sirius.ScanManager.LedgerBounds

/-!
# Retired units leave the ledger

`erase_retired` runs when a unit is retired, when a permit is destroyed and when
a retained block is released, and it erases a unit only if it is retired, has no
retained charge and no permit with an owner. Whatever the order of these
events, the last of them erases the unit.

* `Retirement`: a retired unit that is still there is in use.
* `retired_ledger_empty`: the ledger is empty once everything is released.
-/

namespace Sirius.ScanManager

open Sirius.Common

namespace Ledger

variable {Key : Type} [DecidableEq Key] {chargeSize : ℕ → Option ℕ}

/-- The unit has a retained charge, or its permit is not destroyed yet. -/
def InUse (s : Ledger Key) (u : UnitAccount) : Prop :=
  u.retained ≠ 0 ∨ ∃ p ∈ u.permit, (s.permits.lookup p).isSome

/-- Retired units are in use, those of `skip` aside: they are the ones that
    `erase_retired` is about to look at. -/
structure Retirement (s : Ledger Key) (skip : Key → Prop) : Prop where
  key : ∀ k u p x, s.units.lookup k = some u → u.permit = some p → s.permits.lookup p = some x →
    x.key = k
  inUse : ∀ k u, s.units.lookup k = some u → u.retired = true → ¬skip k → s.InUse u

/-- No unit is left aside. -/
abbrev Retired (s : Ledger Key) : Prop := Retirement s fun _ => False

theorem retired_fresh {s : Ledger Key} (h : s.Fresh) : Retired s := by
  constructor
  all_goals simp [h.units]

/-! ## Effects -/

section Effects

variable {s : Ledger Key}

variable {k : Key}

/-- `erase_retired` looks at the unit that was left aside. -/
theorem retired_eraseRetired (h : Retirement s (· = k)) : Retired (s.eraseRetired k) := by
  unfold eraseRetired
  split
  · rename_i u hu
    split
    · refine ⟨fun k' u' p x hu' => ?_, fun k' u' hu' hr _ => ?_⟩
      · exact h.key k' u' p x (Table.lookup_of_erase hu').2
      · obtain ⟨hk, hu0⟩ := Table.lookup_of_erase hu'
        exact h.inUse k' u' hu0 hr hk
    · rename_i hkeep
      refine ⟨h.key, fun k' u' hu' hr _ => ?_⟩
      by_cases hk : k' = k
      · subst hk
        rw [hu] at hu'
        cases hu'
        by_cases hzero : u.retained = 0
        · -- a permit with an owner is not destroyed
          have hexp : ¬∀ p ∈ u.permit, s.Expired p := fun hall => hkeep ⟨hr, hzero, hall⟩
          push Not at hexp
          obtain ⟨p, hp, hne⟩ := hexp
          refine Or.inr ⟨p, hp, ?_⟩
          by_contra hnone
          refine hne fun x hx => ?_
          rw [hx] at hnone
          exact absurd rfl hnone
        · exact Or.inl hzero
      · exact h.inUse k' u' hu' hr hk
  · rename_i hu
    refine ⟨h.key, fun k' u' hu' hr _ => h.inUse k' u' hu' hr ?_⟩
    rintro rfl
    rw [hu] at hu'
    cases hu'

/-- A unit that is in use, or not retired, need not be left aside. -/
theorem Retirement.full {u : UnitAccount} (h : Retirement s (· = k))
    (hk : s.units.lookup k = some u) (hu : u.retired = true → s.InUse u) : Retired s := by
  refine ⟨h.key, fun k' u' hu' hr _ => ?_⟩
  by_cases hkk : k' = k
  · subst hkk
    rw [hk] at hu'
    cases hu'
    exact hu hr
  · exact h.inUse k' u' hu' hr hkk

/-- A unit changes and keeps its permit. -/
theorem retirement_setUnit {u u' : UnitAccount} (h : Retired s) (hk : s.units.lookup k = some u)
    (hp : u'.permit = u.permit) : Retirement (s.setUnit k u') (· = k) := by
  refine ⟨fun k' v p x hv hvp => ?_, fun k' v hv hr hne => ?_⟩
  · rcases Table.lookup_insert_cases hv with ⟨rfl, rfl⟩ | ⟨-, hv0⟩
    · exact h.key k' u p x hk (hp ▸ hvp)
    · exact h.key k' v p x hv0 hvp
  · obtain ⟨hk', -⟩ | ⟨-, hv0⟩ := Table.lookup_insert_cases hv
    · exact absurd hk' hne
    · exact h.inUse k' v hv0 hr not_false

/-- A permit changes and keeps its unit. -/
theorem retired_setPermit {p : ℕ} {x x' : PermitState Key} (h : Retired s)
    (hp : s.permits.lookup p = some x) (hk : x'.key = x.key) : Retired (s.setPermit p x') := by
  refine ⟨fun k u q y hu hq hy => ?_, fun k u hu hr _ => ?_⟩
  · rcases Table.lookup_insert_cases hy with ⟨rfl, rfl⟩ | ⟨-, hy0⟩
    · exact hk.trans (h.key k u q x hu hq hp)
    · exact h.key k u q y hu hq hy0
  · rcases h.inUse k u hu hr not_false with h1 | ⟨q, hq, hsome⟩
    · exact Or.inl h1
    · exact Or.inr ⟨q, hq, Table.isSome_lookup_insert hsome⟩

theorem retired_registerUnit {s' : Ledger Key} {limit : ℕ} (h : Retired s)
    (hreg : s.registerUnit chargeSize k limit = some s') :
    Retired s' ∧ ∀ u, s'.units.lookup k = some u → u.retired = false := by
  unfold registerUnit at hreg
  split at hreg
  · cases hreg
  split_ifs at hreg
  cases hreg
  refine ⟨⟨fun k' u p x hu hp => ?_, fun k' u hu hr _ => ?_⟩, fun u hu => ?_⟩
  · rcases Table.lookup_insert_cases hu with ⟨rfl, rfl⟩ | ⟨-, hu0⟩
    · cases hp
    · exact h.key k' u p x hu0 hp
  · rcases Table.lookup_insert_cases hu with ⟨rfl, rfl⟩ | ⟨-, hu0⟩
    · cases hr
    · exact h.inUse k' u hu0 hr not_false
  · simp only [Table.lookup_insert_eq, if_true, Option.some.injEq] at hu
    rw [← hu]

theorem retired_attach {u : UnitAccount} {limit : ℕ} (hA : Accounts s) (h : Retired s)
    (hr : u.retired = false) : Retired (s.attach k u limit) := by
  refine ⟨fun k' v p x hv hp hx => ?_, fun k' v hv hr' _ => ?_⟩
  · simp only [attach, Table.lookup_insert_eq] at hv hx
    by_cases hkk : k' = k
    · rw [if_pos hkk] at hv
      cases hv
      cases hp
      rw [if_pos rfl] at hx
      cases hx
      exact hkk.symm
    · rw [if_neg hkk] at hv
      have hid := hA.unitPermitId k' v p hv hp
      rw [if_neg (by omega)] at hx
      exact h.key k' v p x hv hp hx
  · rcases Table.lookup_insert_cases hv with ⟨rfl, rfl⟩ | ⟨-, hv0⟩
    · exact absurd hr' (by simp [hr])
    · rcases h.inUse k' v hv0 hr' not_false with h1 | ⟨p, hp, hsome⟩
      · exact Or.inl h1
      · exact Or.inr ⟨p, hp, Table.isSome_lookup_insert hsome⟩

/-- `~permit_state`, up to its call of `erase_retired`. -/
theorem retirement_destroy {p : ℕ} {x : PermitState Key} (h : Retired s)
    (hp : s.permits.lookup p = some x) :
    Retirement { s with permits := s.permits.erase p, active := s.active - 1 } (· = x.key) := by
  refine ⟨fun k u q y hu hq hy => ?_, fun k u hu hr hne => ?_⟩
  · exact h.key k u q y hu hq (Table.lookup_of_erase hy).2
  · rcases h.inUse k u hu hr not_false with h1 | ⟨q, hq, hsome⟩
    · exact Or.inl h1
    · refine Or.inr ⟨q, hq, ?_⟩
      simp only [Table.lookup_erase_eq]
      split_ifs with hqp
      · rw [hqp] at hq
        exact absurd (h.key k u p x hu hq hp).symm hne
      · exact hsome

theorem retired_startAllocation {p bytes : ℕ} {x : PermitState Key} {retained : Bool}
    (h : Retired s) (hp : s.permits.lookup p = some x) :
    Retired (s.startAllocation chargeSize p x bytes retained) := by
  unfold startAllocation
  split
  · exact h
  rename_i hopen
  have hbytes : bytes ≠ 0 := fun hb => hopen (Or.inr (Or.inr hb))
  split
  · exact { h with }
  rename_i u hu
  split
  · exact { h with }
  rename_i charge _
  cases retained with
  | true =>
    simp only [if_true]
    split
    · exact { h with }
    · rename_i hfit
      have hbut : Retirement (s.setUnit x.key { u with retained := u.retained + charge })
          (· = x.key) := retirement_setUnit h hu rfl
      have hset := hbut.full (u := { u with retained := u.retained + charge })
        (by simp [setUnit]) fun _ => Or.inl (by show u.retained + charge ≠ 0; omega)
      exact { hset with }
  | false =>
    simp only [Bool.false_eq_true, if_false]
    split
    · exact { h with }
    · have hset : Retired (s.setPermit p { x with temporary := x.temporary + charge }) :=
        retired_setPermit h hp rfl
      exact { hset with }

variable {b : Block Key}

theorem refund_retained {u : UnitAccount} (hr : b.retained = true)
    (hu : s.units.lookup b.key = some u) :
    s.refund b = { s.setUnit b.key { u with retained := u.retained - b.charge } with
      retained := s.retained - b.charge } := by
  simp [refund, hr, hu]

/-- A retained charge is given back. -/
theorem retirement_refund {i : ℕ} (hA : Accounts s) (h : Retired s)
    (hb : s.blocks.lookup i = some b) (hs : b.stage ≠ .freed) (hr : b.retained = true) :
    Retirement (s.refund b) (· = b.key) := by
  obtain ⟨u, hu⟩ := hA.unit_of_retained hb hs hr
  rw [refund_retained hr hu]
  have hset : Retirement (s.setUnit b.key { u with retained := u.retained - b.charge })
      (· = b.key) := retirement_setUnit h hu rfl
  exact { hset with }

/-- A temporary charge is given back. -/
theorem retired_refund (h : Retired s) (hr : b.retained = false) : Retired (s.refund b) := by
  unfold refund
  rw [if_neg (by simp [hr])]
  split
  · exact h
  · rename_i x hx
    exact retired_setPermit h hx rfl

/-- An allocation that failed does not call `erase_retired`: its frame still owns
    the permit of the unit. -/
theorem retired_fail {i : ℕ} (hA : Accounts s) (h : Retired s) (hb : s.blocks.lookup i = some b)
    (hs : b.stage = .pending) : Retired (s.refund b) := by
  by_cases hr : b.retained = true
  · obtain ⟨x, hx, hkey⟩ := hA.blockPermit i b hb (Or.inl (by simp [hs]))
    have hlive := not_expired_of_holds hb (Or.inl (by simp [hs])) hx
    obtain ⟨u, hu, hup⟩ := hA.permitUnit _ x hx hlive
    rw [hkey] at hu
    have hbut := retirement_refund hA h hb (by simp [hs]) hr
    rw [refund_retained hr hu] at hbut ⊢
    refine hbut.full (u := { u with retained := u.retained - b.charge }) ?_ fun _ => ?_
    · simp [setUnit]
    · refine Or.inr ⟨b.permit, hup, ?_⟩
      show (s.permits.lookup b.permit).isSome
      rw [hx]
      rfl
  · exact retired_refund h (by simpa using hr)

end Effects

/-! ## Every step, every run -/

theorem retired_step {s s' : Ledger Key} {a : Action Key} (hA : Accounts s) (hR : Retired s)
    (h : step chargeSize s a = some s') : Retired s' := by
  cases a with
  | registerUnit k limit =>
    simp only [step] at h
    split at h
    · cases h
      exact hR
    · cases h
      cases hreg : s.registerUnit chargeSize k limit with
      | none => exact hR
      | some s1 => exact (retired_registerUnit hR hreg).1
  | retireUnit k =>
    simp only [step] at h
    split at h
    · cases h
      exact hR
    · rename_i u hu
      cases h
      exact retired_eraseRetired (retirement_setUnit hR hu rfl)
  | acquirePermit k =>
    simp only [step] at h
    split at h
    · cases h
      exact hR
    split at h
    · cases h
      exact hR
    rename_i u hu
    split at h
    · cases h
      exact hR
    rename_i hexp
    push Not at hexp
    cases h
    exact retired_attach hA hR (by simpa using hexp.1)
  | tryAcquireUnit k limit temporaryLimit =>
    simp only [step] at h
    split at h
    · cases h
      exact hR
    split at h
    · cases h
      exact hR
    rename_i s1 hreg
    have hA1 := (accounts_registerUnit hA hreg).1
    obtain ⟨hR1, hnew⟩ := retired_registerUnit hR hreg
    split at h
    · cases h
      exact hR1
    · rename_i u hu
      cases h
      exact retired_attach hA1 hR1 (hnew u hu)
  | stopPermit p | dropPermit p =>
    simp only [step] at h
    split at h
    · rename_i x hx
      split_ifs at h
      cases h
      exact retired_setPermit hR hx rfl
    · cases h
  | destroyPermit p =>
    simp only [step] at h
    split at h
    · rename_i x hx
      split_ifs at h
      cases h
      exact retired_eraseRetired (retirement_destroy hR hx)
    · cases h
  | lockPermit p =>
    simp only [step] at h
    split at h
    · split_ifs at h
      · cases h
        exact hR
      · cases h
        exact { hR with }
    · cases h
      exact hR
  | allocate p bytes retained =>
    simp only [step] at h
    split at h
    · rename_i x hx
      split_ifs at h
      · cases h
        exact hR
      · cases h
        exact retired_startAllocation hR hx
    · cases h
      exact hR
  | allocated i ok =>
    simp only [step] at h
    split at h
    · rename_i b hb
      split_ifs at h with hs
      · cases h
        exact { hR with }
      · cases h
        exact { retired_fail hA hR hb hs with }
    · cases h
  | releaseBlock i =>
    simp only [step] at h
    split at h
    · rename_i b hb
      split_ifs at h with hs hr
      · cases h
        have hbut := retirement_refund hA hR hb (by simp [hs]) hr
        exact retired_eraseRetired { hbut with }
      · cases h
        exact { retired_refund hR (by simpa using hr) with }
    · cases h
  | dropBlock i =>
    simp only [step] at h
    split at h
    · split_ifs at h
      cases h
      exact { hR with }
    · cases h
  | close =>
    cases h
    exact { hR with }

theorem run_retired {s0 s : Ledger Key} {as : List (Action Key)} (h0 : s0.Fresh)
    (hrun : run (step chargeSize) s0 as = some s) : Accounts s ∧ Retired s := by
  refine run_invariant (I := fun s => Accounts s ∧ Retired s) ?_
    ⟨accounts_fresh h0, retired_fresh h0⟩ hrun
  intro s1 a s2 hI hstep
  exact ⟨accounts_step hI.1 hstep, retired_step hI.1 hI.2 hstep⟩

/-- Every unit is retired, every `permit_state` is destroyed, and no block or
    allocation is left. -/
structure Released (s : Ledger Key) : Prop where
  units : ∀ k u, s.units.lookup k = some u → u.retired = true
  permits : s.permits = ∅
  blocks : s.blocks = ∅

/-- **Nothing is left behind.** In every run after a successful admission, no
    release path looks up a unit that is gone, and once every unit is retired and
    every permit and block is released, the ledger tracks no unit and its counters
    are zero. -/
theorem retired_ledger_empty {request : ℕ → ℕ → Option Grant} {admitted host : Bool}
    {quantum maxPermits : ℕ} {scans : List ScanEnvelope} {d : AdmissionDecision}
    {s0 s : Ledger Key} {as : List (Action Key)}
    (h0 : admitScans Key request admitted host quantum scans maxPermits = .ok (d, some s0))
    (hrun : run (step chargeSize) s0 as = some s) :
    s.missingUnit = false ∧
      (s.Released → s.units = ∅ ∧ s.registered = 0 ∧ s.retained = 0 ∧ s.active = 0) := by
  obtain ⟨hA, hR⟩ := run_retired (admit_covers h0).1 hrun
  refine ⟨hA.found, fun hrel => ?_⟩
  have hunits : s.units = ∅ := by
    apply Table.eq_empty
    intro k
    by_contra hne
    obtain ⟨u, hu⟩ := Option.ne_none_iff_exists'.mp hne
    have hzero := hA.unitRetained k u hu
    simp only [sumBlocks, hrel.blocks, Table.total_empty] at hzero
    rcases hR.inUse k u hu (hrel.units k u hu) not_false with h1 | ⟨p, -, hp⟩
    · exact h1 hzero
    · rw [hrel.permits] at hp
      cases hp
  refine ⟨hunits, ?_, ?_, ?_⟩
  · rw [hA.registered, hunits, Table.total_empty]
  · rw [hA.retained, sumBlocks, hrel.blocks, Table.total_empty]
  · rw [hA.active, hrel.permits]
    rfl

/-- The unit is retired first and its retained block is released last. -/
theorem retired_ledger_empty_two_scans :
    ∃ (d : AdmissionDecision) (s0 s : Ledger ℕ),
      admitScans ℕ (fun _ bytes => some { bytes }) false true 64
        [{ units := [{ temporary := [100], retained := 10 }], qualified := true },
          { units := [{ temporary := [20] }], qualified := true }] 1 = .ok (d, some s0) ∧
      run (step (fun bytes => some ((bytes + 63) / 64 * 64))) s0
        [.tryAcquireUnit 0 10 none, .allocate 0 10 true, .allocated 0 true, .retireUnit 0, .close,
          .stopPermit 0, .dropPermit 0, .destroyPermit 0, .releaseBlock 0] = some s ∧
      s.Released ∧ s.units = ∅ ∧ s.registered = 0 ∧ s.retained = 0 ∧ s.active = 0 := by
  have hrun : ∃ s, run (step (fun bytes => some ((bytes + 63) / 64 * 64)))
      ({ grant := some 192, retainedLimit := 64, w := 128, permitLimit := 1 } : Ledger ℕ)
        [.tryAcquireUnit 0 10 none, .allocate 0 10 true, .allocated 0 true, .retireUnit 0, .close,
          .stopPermit 0, .dropPermit 0, .destroyPermit 0, .releaseBlock 0] = some s ∧
      s.units = ∅ ∧ s.permits = ∅ ∧ s.blocks = ∅ := ⟨_, rfl, rfl, rfl, rfl⟩
  obtain ⟨s, hrun, hu, hp, hb⟩ := hrun
  have hrel : s.Released := ⟨by simp [hu], hp, hb⟩
  exact ⟨_, _, s, admit_two_scans, hrun, hrel, (retired_ledger_empty admit_two_scans hrun).2 hrel⟩

end Ledger

end Sirius.ScanManager
