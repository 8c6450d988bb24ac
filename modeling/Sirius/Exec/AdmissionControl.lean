import Sirius.Common.Run

/-!
# Admission control

Model of `admission_control` (`src/exec/admission_control.cpp`). A step is one evaluation of the
wait condition under the mutex, with the grant if it holds, or one release. `size_t` is `UInt64`,
so that the sums wrap as in the source.

* `step`: the system.
* `Contract`: the slots account for the amount in use.
* `contract_iff_meets`: the contract holds in a run exactly if no sum wraps in it.
-/

namespace Sirius.Exec.AdmissionControl

open Sirius.Common

/-- What the record keeps of a granted request: its size, and how many slots were outstanding. -/
structure Grant where
  size : UInt64
  others : ℕ
  deriving DecidableEq, Repr

/-- `slots` are the amounts of the slots that hold a reservation, `parked` the sizes of the calls
    that wait. -/
structure State where
  budget : UInt64
  inUse : UInt64 := 0
  activeSlots : UInt64 := 0
  slots : List UInt64 := []
  parked : List UInt64 := []
  grants : List Grant := []
  deriving DecidableEq, Repr

/-- No slot is out. -/
def init (budget : UInt64) : State := { budget := budget }

/-- The wait condition of `acquire` (line 31). -/
def State.fits (s : State) (size : UInt64) : Bool :=
  s.inUse + size ≤ s.budget ∨ s.activeSlots = 0

/-- The rest of `acquire` after the wait (lines 37–47). -/
def State.grant (s : State) (size : UInt64) : State :=
  let reserved := if s.inUse + size ≤ s.budget then size else s.budget
  { s with
    inUse := s.inUse + reserved
    activeSlots := s.activeSlots + 1
    slots := s.slots ++ [reserved]
    grants := s.grants ++ [⟨size, s.slots.length⟩] }

/-- `release`, by the destructor of the slot. -/
def State.release (s : State) (i : ℕ) (reserved : UInt64) : State :=
  { s with
    inUse := s.inUse - reserved
    activeSlots := s.activeSlots - 1
    slots := s.slots.eraseIdx i }

/-- `acquire size` up to its return or its wait, a parked call that evaluates its condition again,
    and the end of a slot. `stop` is whether the stop token was triggered. -/
inductive Action where
  | acquire (size : UInt64) (stop : Bool)
  | wake (i : ℕ) (stop : Bool)
  | release (i : ℕ)
  deriving DecidableEq, Repr

/-- One critical section. -/
def step (s : State) : Action → Option State
  | .acquire size stop =>
    if s.fits size then some (s.grant size)
    else if stop then some s
    else some { s with parked := s.parked ++ [size] }
  | .wake i stop =>
    s.parked[i]?.map fun size =>
      if s.fits size then { s.grant size with parked := s.parked.eraseIdx i }
      else if stop then { s with parked := s.parked.eraseIdx i }
      else s
  | .release i => s.slots[i]?.map fun reserved => s.release i reserved

/-! ## Steps -/

/-- The sum of the amounts that the slots hold, as an unbounded integer. -/
def held (slots : List UInt64) : ℕ := (slots.map UInt64.toNat).sum

@[simp] theorem held_append (l₁ l₂ : List UInt64) : held (l₁ ++ l₂) = held l₁ + held l₂ := by
  simp [held]

@[simp] theorem held_singleton (x : UInt64) : held [x] = x.toNat := by
  simp [held]

theorem held_eraseIdx {slots : List UInt64} {i : ℕ} {x : UInt64} (h : slots[i]? = some x) :
    held (slots.eraseIdx i) + x.toNat = held slots := by
  induction slots generalizing i with
  | nil => cases h
  | cons y slots ih =>
    cases i with
    | zero =>
      cases h
      simp [held, Nat.add_comm]
    | succ i =>
      have := ih h
      simp only [held, List.eraseIdx_cons_succ, List.map_cons, List.sum_cons] at this ⊢
      omega

/-- The size that an action asks for. -/
def State.asks (s : State) : Action → Option UInt64
  | .acquire size _ => some size
  | .wake i _ => s.parked[i]?
  | .release _ => none

/-- A step grants what it asks for, releases a slot, or leaves the accounts alone. -/
theorem step_cases {s s' : State} {a : Action} (h : step s a = some s') :
    (∃ size parked, s.asks a = some size ∧ s.fits size = true ∧
        s' = { s.grant size with parked := parked }) ∨
      (∃ i reserved, s.asks a = none ∧ s.slots[i]? = some reserved ∧ s' = s.release i reserved) ∨
      (∃ parked, (∀ size, s.asks a = some size → s.fits size = false) ∧
        s' = { s with parked := parked }) := by
  cases a with
  | acquire size stop =>
    simp only [step] at h
    split_ifs at h with hfits hstop <;> cases h
    · exact .inl ⟨size, s.parked, rfl, hfits, rfl⟩
    · exact .inr (.inr ⟨s.parked, fun _ heq => by cases heq; simpa using hfits, rfl⟩)
    · exact .inr (.inr ⟨_, fun _ heq => by cases heq; simpa using hfits, rfl⟩)
  | wake i stop =>
    obtain ⟨size, hi, rfl⟩ := Option.map_eq_some_iff.mp h
    by_cases hfits : s.fits size = true
    · exact .inl ⟨size, _, hi, hfits, if_pos hfits⟩
    · have hnot : ∀ size', s.asks (.wake i stop) = some size' → s.fits size' = false := by
        intro size' heq
        rw [State.asks, hi] at heq
        cases heq
        simpa using hfits
      rw [if_neg hfits]
      refine .inr (.inr ?_)
      split_ifs
      · exact ⟨_, hnot, rfl⟩
      · exact ⟨s.parked, hnot, rfl⟩
  | release i =>
    obtain ⟨reserved, hi, rfl⟩ := Option.map_eq_some_iff.mp h
    exact .inr (.inl ⟨i, reserved, rfl, hi, rfl⟩)

/-! ## The contract -/

/-- The slots fit the budget, or one of them is alone. -/
structure Contract (s : State) : Prop where
  accounts : held s.slots = s.inUse.toNat
  within : held s.slots ≤ s.budget.toNat
  oversized : ∀ g ∈ s.grants, s.budget < g.size → g.others = 0

/-- The contract, and the count of the slots. -/
structure Inv (s : State) : Prop extends Contract s where
  active : s.activeSlots.toNat = s.slots.length % 2 ^ 64

/-- The request keeps the sum below `2 ^ 64`, and if it does not fit, the number of slots is not a
    positive multiple of `2 ^ 64`. -/
def Fair (s : State) (size : UInt64) : Prop :=
  s.inUse.toNat + size.toNat < 2 ^ 64 ∧
    (s.inUse.toNat + size.toNat ≤ s.budget.toNat ∨ s.slots.length % 2 ^ 64 ≠ 0 ∨ s.slots = [])

/-- What an action asks for is fair. -/
def Ok (s : State) (a : Action) : Prop := ∀ size, s.asks a = some size → Fair s size

variable {size : UInt64} {s : State}

/-- A sum that wraps is below the amount in use, so that the request is granted. -/
theorem fits_of_wrap (h : Contract s)
    (hwrap : 2 ^ 64 ≤ s.inUse.toNat + size.toNat) : s.inUse + size ≤ s.budget := by
  have haccounts := h.accounts
  have hwithin := h.within
  have hsize := size.toNat_lt
  have huse := s.inUse.toNat_lt
  rw [UInt64.le_iff_toNat_le, UInt64.toNat_add]
  omega

theorem fair_of_not_fits (h : Inv s) (hfits : s.fits size = false) : Fair s size := by
  simp only [State.fits, decide_eq_false_iff_not, not_or] at hfits
  have hactive := h.active
  refine ⟨?_, .inr (.inl fun hzero => hfits.2 ?_)⟩
  · by_contra hwrap
    exact hfits.1 (fits_of_wrap h.toContract (by omega))
  · rw [hzero] at hactive
    exact UInt64.toNat_inj.mp hactive

theorem contract_grant (h : Inv s) (hfits : s.fits size = true)
    (hfair : Fair s size) : Contract (s.grant size) := by
  obtain ⟨⟨haccounts, hwithin, hoversized⟩, hactive⟩ := h
  obtain ⟨hsum, hslots⟩ := hfair
  by_cases hle : s.inUse + size ≤ s.budget
  · have hnat : s.inUse.toNat + size.toNat ≤ s.budget.toNat := by
      rw [UInt64.le_iff_toNat_le, UInt64.toNat_add] at hle
      omega
    simp only [State.grant, if_pos hle]
    refine ⟨?_, ?_, fun g hg hlt => ?_⟩
    · rw [held_append, held_singleton, UInt64.toNat_add]
      omega
    · rw [held_append, held_singleton]
      show _ ≤ s.budget.toNat
      omega
    · rcases List.mem_append.mp hg with hg | hg
      · exact hoversized g hg hlt
      · rw [List.mem_singleton.mp hg] at hlt
        change s.budget < size at hlt
        rw [UInt64.lt_iff_toNat_lt] at hlt
        omega
  · -- the fallback: nothing is outstanding
    have hnil : s.slots = [] := by
      rcases hslots with hslots | hslots | hslots
      · rw [UInt64.le_iff_toNat_le, UInt64.toNat_add] at hle
        omega
      · simp only [State.fits, decide_eq_true_eq] at hfits
        have hzero := hfits.resolve_left hle
        rw [hzero] at hactive
        exact absurd hactive.symm hslots
      · exact hslots
    have huse : s.inUse.toNat = 0 := by
      rw [← haccounts, hnil]
      rfl
    have hbudget := s.budget.toNat_lt
    simp only [State.grant, if_neg hle]
    refine ⟨?_, ?_, fun g hg hlt => ?_⟩
    · rw [held_append, held_singleton, UInt64.toNat_add]
      omega
    · rw [held_append, held_singleton]
      show _ ≤ s.budget.toNat
      omega
    · rcases List.mem_append.mp hg with hg | hg
      · exact hoversized g hg hlt
      · rw [List.mem_singleton.mp hg, hnil]
        rfl

theorem fair_of_contract_grant (h : Inv s) (hgrant : Contract (s.grant size)) : Fair s size := by
  have haccounts := h.accounts
  have hsum := hgrant.accounts
  have hwithin := hgrant.within
  have hnowrap : s.inUse.toNat + size.toNat < 2 ^ 64 := by
    by_contra hwrap
    have hle : s.inUse + size ≤ s.budget := fits_of_wrap h.toContract (by omega)
    have huse := (s.inUse + size).toNat_lt
    simp only [State.grant, if_pos hle, held_append, held_singleton] at hsum
    omega
  refine ⟨hnowrap, ?_⟩
  by_contra hslots
  simp only [not_or, not_le, not_not] at hslots
  obtain ⟨hgt, -, hne⟩ := hslots
  have hnle : ¬ s.inUse + size ≤ s.budget := by
    rw [UInt64.le_iff_toNat_le, UInt64.toNat_add]
    omega
  -- the slots hold nothing, so that the request alone is over the budget
  have hover : s.budget < size := by
    rw [UInt64.lt_iff_toNat_lt]
    simp only [State.grant, if_neg hnle, held_append, held_singleton] at hwithin
    omega
  have hothers := hgrant.oversized ⟨size, s.slots.length⟩ (by simp [State.grant]) hover
  exact hne (List.eq_nil_of_length_eq_zero hothers)

theorem inv_grant (h : Inv s) (hgrant : Contract (s.grant size)) : Inv (s.grant size) := by
  refine ⟨hgrant, ?_⟩
  have hactive := h.active
  simp only [State.grant, List.length_append, List.length_singleton, UInt64.toNat_add,
    UInt64.toNat_one]
  omega

theorem inv_release {i : ℕ} {reserved : UInt64} (h : Inv s)
    (hi : s.slots[i]? = some reserved) : Inv (s.release i reserved) := by
  obtain ⟨⟨haccounts, hwithin, hoversized⟩, hactive⟩ := h
  have hheld := held_eraseIdx hi
  have huse := s.inUse.toNat_lt
  obtain ⟨hlt, -⟩ := List.getElem?_eq_some_iff.mp hi
  refine ⟨⟨?_, ?_, hoversized⟩, ?_⟩
  · show held (s.slots.eraseIdx i) = (s.inUse - reserved).toNat
    rw [UInt64.toNat_sub]
    omega
  · show held (s.slots.eraseIdx i) ≤ s.budget.toNat
    omega
  · show (s.activeSlots - 1).toNat = (s.slots.eraseIdx i).length % 2 ^ 64
    rw [UInt64.toNat_sub, List.length_eraseIdx_of_lt hlt, UInt64.toNat_one]
    omega

/-- A step keeps the contract exactly if it asks for something fair. -/
theorem ok_iff_inv {s s' : State} {a : Action} (h : Inv s) (hs : step s a = some s') :
    (Contract s' → Ok s a) ∧ (Ok s a → Inv s') := by
  rcases step_cases hs with ⟨size, parked, hasks, hfits, rfl⟩ | ⟨i, reserved, hasks, hi, rfl⟩ |
    ⟨parked, hnot, rfl⟩
  · constructor
    · rintro ⟨haccounts, hwithin, hoversized⟩ size' heq
      rw [hasks] at heq
      cases heq
      exact fair_of_contract_grant h ⟨haccounts, hwithin, hoversized⟩
    · intro hok
      have hinv := inv_grant h (contract_grant h hfits (hok size hasks))
      exact ⟨⟨hinv.accounts, hinv.within, hinv.oversized⟩, hinv.active⟩
  · refine ⟨fun _ size heq => ?_, fun _ => inv_release h hi⟩
    rw [hasks] at heq
    cases heq
  · refine ⟨fun _ size heq => fair_of_not_fits h (hnot size heq), fun _ => ?_⟩
    exact ⟨⟨h.accounts, h.within, h.oversized⟩, h.active⟩

theorem asks_of_step_none {a : Action} (h : step s a = none) : s.asks a = none := by
  cases a with
  | acquire size stop =>
    simp only [step] at h
    split_ifs at h
  | wake i stop => simpa [step, State.asks] using h
  | release i => rfl

/-- The contract in every state of a run. -/
def HoldsAlong (s : State) (as : List Action) : Prop :=
  ∀ t s', t <+: as → run step s t = some s' → Contract s'

theorem holdsAlong_iff (h : Inv s) (as : List Action) : HoldsAlong s as ↔ Meets step Ok s as := by
  induction as generalizing s with
  | nil =>
    refine ⟨fun _ => trivial, fun _ t s' ht hrun => ?_⟩
    rw [List.prefix_nil.mp ht] at hrun
    cases hrun
    exact h.toContract
  | cons a as ih =>
    constructor
    · intro hall
      constructor
      · rcases hs : step s a with _ | s'
        · intro size heq
          rw [asks_of_step_none hs] at heq
          cases heq
        · refine (ok_iff_inv h hs).1 (hall [a] s' ⟨as, rfl⟩ ?_)
          rw [run_cons, hs]
          rfl
      · intro s' hs
        have hcontract : Contract s' := by
          refine hall [a] s' ⟨as, rfl⟩ ?_
          rw [run_cons, hs]
          rfl
        have hok := (ok_iff_inv h hs).1 hcontract
        refine (ih ((ok_iff_inv h hs).2 hok)).mp fun t s'' ht hrun => ?_
        refine hall (a :: t) s'' (List.cons_prefix_cons.mpr ⟨rfl, ht⟩) ?_
        rw [run_cons, hs]
        exact hrun
    · rintro ⟨hok, hrest⟩ t s'' ht hrun
      rcases t with _ | ⟨b, t⟩
      · cases hrun
        exact h.toContract
      · obtain ⟨rfl, htail⟩ := List.cons_prefix_cons.mp ht
        obtain ⟨s', hs, hrun⟩ := Option.bind_eq_some_iff.mp hrun
        exact (ih ((ok_iff_inv h hs).2 hok)).mpr (hrest s' hs) t s'' htail hrun

theorem inv_init (budget : UInt64) : Inv (init budget) :=
  ⟨⟨rfl, Nat.zero_le _, nofun⟩, rfl⟩

/-- **The slots account for the amount in use, within the budget, and an oversized request is
    granted alone, in every state of a run exactly if no request of the run makes the sum wrap or
    falls back while a positive multiple of `2 ^ 64` slots is outstanding.** -/
theorem contract_iff_meets (budget : UInt64) (as : List Action) :
    HoldsAlong (init budget) as ↔ Meets step Ok (init budget) as :=
  holdsAlong_iff (inv_init budget) as

/-- A request of `2 ^ 64 - 1` bytes beside a slot of 5 of 10 bytes. -/
def wrappingRequest : List Action := [.acquire 5 false, .acquire 18446744073709551615 false]

/-- It is granted, and the amount in use goes down. -/
def afterWrappingRequest : State where
  budget := 10
  inUse := 4
  activeSlots := 2
  slots := [5, 18446744073709551615]
  grants := [⟨5, 0⟩, ⟨18446744073709551615, 1⟩]

theorem wrapping_request_breaks_contract :
    run step (init 10) wrappingRequest = some afterWrappingRequest ∧
      ¬ HoldsAlong (init 10) wrappingRequest := by
  have hrun : run step (init 10) wrappingRequest = some afterWrappingRequest := by decide +kernel
  refine ⟨hrun, fun hall => ?_⟩
  have hcontract := hall _ _ List.prefix_rfl hrun
  exact absurd hcontract.accounts (by decide +kernel)

end Sirius.Exec.AdmissionControl
