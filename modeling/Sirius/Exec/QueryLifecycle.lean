import Sirius.Common.Run
import Sirius.Common.Table

/-!
# The query lifecycle registry

Model of `src/exec/query_lifecycle_registry.hpp`. A control block is a number. The
lookup of a control block, under the registry's mutex, and the section under the
mutex of the block are separate actions: a call in between them is `pending` and holds
the block. `quiesce_all` and `clear` hold the registry's mutex while they take the
mutexes of the blocks one by one. The guards and leases that exist are part of the
state. A move of one changes nothing here, and a move onto another one resets that
one first.

`retired` records that `release_resources`, `close` or `clear` took effect on a block.
The diagnostics and the memory wait guards are left out.

* `Registry.Inv`: the counters of a block count its guards and leases, and a retired
  block has none.
* `lifecycle_safe`: this holds in every reachable state, a quiescing gate stays
  closed, and a block is retired only when its counters are zero.
-/

namespace Sirius.Exec

open Sirius.Common

/-! ## Control blocks, guards and leases -/

/-- `query_lifecycle_state`. -/
inductive GateState where
  | opened
  | quiescing
  deriving DecidableEq, Repr

/-- `query_control`, and whether it is retired. -/
structure Control where
  state : GateState := .opened
  submissions : ℕ := 0
  work : ℕ := 0
  resources : Bool := false
  retired : Bool := false
  deriving DecidableEq, Repr

/-- `require_idle`. -/
def Control.idle (c : Control) : Bool := c.submissions = 0 && c.work = 0

/-- A `submission_guard` with a control block. -/
structure Guard where
  control : ℕ
  ownsWork : Bool
  deriving DecidableEq, Repr

/-- The calls that look up a control block and then lock it. -/
inductive Call where
  | tryBeginSubmission
  | tryAcquireWork
  | quiesce
  | waitForSubmissions
  | waitForWork
  | retainResources
  | releaseResources
  deriving DecidableEq, Repr

instance : LawfulBEq (Call × ℕ) := inferInstance

/-- What a call does under the registry's mutex: `quiesce_all` and the first loop of
    `clear` mark the blocks, the second loop of `clear` checks them. -/
inductive Sweep where
  | marking (clearing : Bool) (todo : List ℕ)
  | checking (todo : List ℕ)
  deriving DecidableEq, Repr

/-- The registry, the control blocks, the guards and leases (by control block), and
    the calls that hold a block. -/
structure Registry where
  queries : Table ℕ ℕ := ∅
  controls : ℕ → Control := fun _ => {}
  made : ℕ := 0
  runtimeFailed : Bool := false
  guards : List Guard := []
  leases : List ℕ := []
  pending : List (Call × ℕ) := []
  sweep : Option Sweep := none

namespace Registry

/-- Change one control block. -/
def update (s : Registry) (c : ℕ) (f : Control → Control) : Registry :=
  { s with controls := Function.update s.controls c (f (s.controls c)) }

/-- `mark_quiescing`. -/
def mark (c : Control) : Control := { c with state := .quiescing }

/-! ## Operations -/

/-- `open_query` (lines 336–347). -/
def openQuery (s : Registry) (id : ℕ) : Registry :=
  if s.runtimeFailed || (s.queries.lookup id).isSome then s
  else
    { s with
      queries := s.queries.insert id s.made
      controls := Function.update s.controls s.made {}
      made := s.made + 1 }

/-- `find`: an unknown id ends the call. -/
def find (s : Registry) (call : Call) (id : ℕ) : Registry :=
  match s.queries.lookup id with
  | none => s
  | some c => { s with pending := (call, c) :: s.pending }

/-- The section of a call under the mutex of its block (lines 349–441). A wait returns
    when its predicate holds; where the gate is not quiescing it throws. -/
def perform (s : Registry) (call : Call) (c : ℕ) : Option Registry :=
  let control := s.controls c
  match call with
  | .tryBeginSubmission =>
    if control.state = .opened then
      some
        { s.update c fun x => { x with submissions := x.submissions + 1, work := x.work + 1 } with
          guards := ⟨c, true⟩ :: s.guards }
    else some s
  | .tryAcquireWork =>
    if control.state = .opened then
      some { s.update c fun x => { x with work := x.work + 1 } with leases := c :: s.leases }
    else some s
  | .quiesce => some (s.update c mark)
  | .waitForSubmissions =>
    if control.state = .quiescing ∧ control.submissions ≠ 0 then none else some s
  | .waitForWork => if control.state = .quiescing ∧ control.idle = false then none else some s
  | .retainResources =>
    if control.state = .opened ∧ control.resources = false then
      some (s.update c fun x => { x with resources := true })
    else some s
  | .releaseResources =>
    if control.state = .quiescing ∧ control.idle = true then
      some (s.update c fun x => { x with resources := false, retired := true })
    else some s

/-- `take_work_lease` (lines 176–183). -/
def takeWorkLease (s : Registry) (g : Guard) : Registry :=
  if g.ownsWork then
    { s with guards := ⟨g.control, false⟩ :: s.guards.erase g, leases := g.control :: s.leases }
  else s

/-- `submission_guard::finish` (lines 186–201). -/
def finish (s : Registry) (g : Guard) : Registry :=
  { s.update g.control fun x =>
      { x with
        work := x.work - (if g.ownsWork then 1 else 0)
        submissions := x.submissions - 1 } with
    guards := s.guards.erase g }

/-- `work_lease::reset` (lines 120–132). -/
def resetLease (s : Registry) (c : ℕ) : Registry :=
  { s.update c fun x => { x with work := x.work - 1 } with leases := s.leases.erase c }

/-- `close` (lines 446–461). -/
def close (s : Registry) (id : ℕ) : Registry :=
  match s.queries.lookup id with
  | none => s
  | some c =>
    if (s.controls c).idle then
      { s.update c fun x => { mark x with retired := true } with queries := s.queries.erase id }
    else s

/-- The control blocks of the registered queries. -/
def registered (s : Registry) : List ℕ := s.queries.entries.map fun e => e.2

/-- The next step of a sweep (lines 494–520). A block that is not idle ends `clear`. -/
def advance (s : Registry) : Option Registry :=
  match s.sweep with
  | none => none
  | some (.marking clearing (c :: todo)) =>
    some { s.update c mark with sweep := some (.marking clearing todo) }
  | some (.marking false []) => some { s with sweep := none }
  | some (.marking true []) => some { s with sweep := some (.checking s.registered) }
  | some (.checking (c :: todo)) =>
    if (s.controls c).idle then some { s with sweep := some (.checking todo) }
    else some { s with sweep := none }
  | some (.checking []) =>
    some
      { s with
        controls := fun c =>
          if c ∈ s.registered then { s.controls c with retired := true } else s.controls c
        queries := ∅
        sweep := none }

/-- The actions. Those from `openQuery` to `startSweep` take the registry's mutex. -/
inductive Action where
  | openQuery (id : ℕ)
  | find (call : Call) (id : ℕ)
  | close (id : ℕ)
  | reportFailure
  | startSweep (clearing : Bool)
  | advance
  | perform (call : Call) (c : ℕ)
  | takeWorkLease (g : Guard)
  | finish (g : Guard)
  | resetLease (c : ℕ)
  deriving DecidableEq, Repr

/-- One action. A sweep holds the registry's mutex to its end. `report_failure` latches
    the failure and is followed by a sweep. -/
def step (s : Registry) : Action → Option Registry
  | .openQuery id => if s.sweep.isNone then some (s.openQuery id) else none
  | .find call id => if s.sweep.isNone then some (s.find call id) else none
  | .close id => if s.sweep.isNone then some (s.close id) else none
  | .reportFailure => if s.sweep.isNone then some { s with runtimeFailed := true } else none
  | .startSweep clearing =>
    if s.sweep.isNone then some { s with sweep := some (.marking clearing s.registered) } else none
  | .advance => s.advance
  | .perform call c =>
    if (call, c) ∈ s.pending then
      { s with pending := s.pending.erase (call, c) }.perform call c
    else none
  | .takeWorkLease g => if g ∈ s.guards then some (s.takeWorkLease g) else none
  | .finish g => if g ∈ s.guards then some (s.finish g) else none
  | .resetLease c => if c ∈ s.leases then some (s.resetLease c) else none

/-! ## The invariant -/

/-- The guards of a block. -/
def guardsOf (s : Registry) (c : ℕ) : ℕ := s.guards.countP fun g => g.control = c

/-- The claims to work of a block: its leases, and the guards that still own theirs. -/
def claimsOf (s : Registry) (c : ℕ) : ℕ :=
  s.leases.count c + s.guards.countP fun g => g.control = c ∧ g.ownsWork = true

/-- What a sweep of `clear` has established. -/
def SweepOk (s : Registry) : Prop :=
  match s.sweep with
  | none => True
  | some (.marking clearing todo) => (∀ c ∈ todo, c < s.made) ∧
      (clearing = true → ∀ c ∈ s.registered, c ∈ todo ∨ (s.controls c).state = .quiescing)
  | some (.checking todo) => ∀ c ∈ s.registered, (s.controls c).state = .quiescing ∧
      (c ∈ todo ∨ (s.controls c).idle = true)

/-- The counters of a block count its guards and its claims to work; a retired block is
    quiescing and has none; the blocks in use have been made. -/
structure Inv (s : Registry) : Prop where
  submissions : ∀ c, (s.controls c).submissions = s.guardsOf c
  work : ∀ c, (s.controls c).work = s.claimsOf c
  retired : ∀ c, (s.controls c).retired = true →
    (s.controls c).state = .quiescing ∧ (s.controls c).idle = true
  known : ∀ c ∈ s.registered, c < s.made
  pending : ∀ e ∈ s.pending, e.2 < s.made
  fresh : ∀ c, s.made ≤ c → s.controls c = {}
  sweep : s.SweepOk

theorem inv_init : Inv {} := by
  refine ⟨fun c => rfl, fun c => rfl, fun c h => ?_, fun c h => ?_, fun e h => ?_, fun c _ => rfl,
    trivial⟩
  · cases h
  · cases h
  · cases h

/-! ## Actions on one block -/

variable {s s' : Registry} {c : ℕ} {g : Guard}

/-- A step that changes block `c` only, with its guards and leases. -/
structure Local (s s' : Registry) (c : ℕ) : Prop where
  made : s'.made = s.made
  lt : c < s.made
  registered : ∀ d ∈ s'.registered, d ∈ s.registered
  pending : ∀ e ∈ s'.pending, e ∈ s.pending
  other : ∀ d ≠ c, s'.controls d = s.controls d ∧ s'.guardsOf d = s.guardsOf d ∧
    s'.claimsOf d = s.claimsOf d
  submissions : (s'.controls c).submissions = s'.guardsOf c
  work : (s'.controls c).work = s'.claimsOf c
  closed : (s.controls c).state = .quiescing → (s'.controls c).state = .quiescing ∧
    ((s.controls c).idle = true → (s'.controls c).idle = true)
  retired : (s'.controls c).retired = true →
    (s'.controls c).state = .quiescing ∧ (s'.controls c).idle = true
  retires : (s'.controls c).retired = true →
    (s.controls c).retired = true ∨ (s.controls c).idle = true

theorem Local.retires_only (hl : Local s s' c) {d : ℕ} (hd : (s'.controls d).retired = true) :
    (s.controls d).retired = true ∨ (s.controls d).idle = true := by
  by_cases hdc : d = c
  · subst hdc
    exact hl.retires hd
  · rw [(hl.other d hdc).1] at hd
    exact .inl hd

/-- A closed gate stays closed, and idle. -/
theorem Local.quiescing (hl : Local s s' c) {d : ℕ} (hd : (s.controls d).state = .quiescing) :
    (s'.controls d).state = .quiescing ∧
      ((s.controls d).idle = true → (s'.controls d).idle = true) := by
  by_cases hdc : d = c
  · subst hdc
    exact hl.closed hd
  · rw [(hl.other d hdc).1]
    exact ⟨hd, id⟩

theorem Local.sweepOk (hl : Local s s' c) (h : s.SweepOk) (hsweep : s'.sweep = s.sweep) :
    s'.SweepOk := by
  unfold SweepOk at *
  rw [hsweep]
  split at h
  · trivial
  · refine ⟨fun d hd => hl.made ▸ h.1 d hd, fun hclearing d hd => ?_⟩
    exact (h.2 hclearing d (hl.registered d hd)).imp_right fun hq => (hl.quiescing hq).1
  · intro d hd
    obtain ⟨hq, hidle⟩ := h d (hl.registered d hd)
    exact ⟨(hl.quiescing hq).1, hidle.imp_right (hl.quiescing hq).2⟩

theorem Local.inv (hl : Local s s' c) (h : s.Inv) (hsweep : s'.SweepOk) : s'.Inv := by
  refine ⟨fun d => ?_, fun d => ?_, fun d hd => ?_, fun d hd => ?_, fun e he => ?_,
    fun d hd => ?_, hsweep⟩
  · by_cases hdc : d = c
    · rw [hdc, hl.submissions]
    · rw [(hl.other d hdc).1, (hl.other d hdc).2.1]
      exact h.submissions d
  · by_cases hdc : d = c
    · rw [hdc, hl.work]
    · rw [(hl.other d hdc).1, (hl.other d hdc).2.2]
      exact h.work d
  · by_cases hdc : d = c
    · rw [hdc] at hd ⊢
      exact hl.retired hd
    · rw [(hl.other d hdc).1] at hd ⊢
      exact h.retired d hd
  · rw [hl.made]
    exact h.known d (hl.registered d hd)
  · rw [hl.made]
    exact h.pending e (hl.pending e he)
  · rw [hl.made] at hd
    have hlt := hl.lt
    rw [(hl.other d (by omega)).1]
    exact h.fresh d hd

/-- A block that has a guard or a lease has been made. -/
theorem Inv.lt_made (h : s.Inv) (hc : s.controls c ≠ {}) : c < s.made := by
  by_contra hge
  exact hc (h.fresh c (not_lt.mp hge))

theorem Inv.guard_counts (h : s.Inv) (hg : g ∈ s.guards) :
    0 < (s.controls g.control).submissions ∧
      (g.ownsWork = true → 0 < (s.controls g.control).work) := by
  constructor
  · rw [h.submissions, guardsOf, List.countP_pos_iff]
    exact ⟨g, hg, by simp⟩
  · intro hown
    have hpos : 0 < s.guards.countP fun x => x.control = g.control ∧ x.ownsWork = true :=
      List.countP_pos_iff.mpr ⟨g, hg, by simp [hown]⟩
    rw [h.work, claimsOf]
    omega

theorem Inv.guard_lt (h : s.Inv) (hg : g ∈ s.guards) : g.control < s.made := by
  refine h.lt_made fun hfresh => ?_
  have := (h.guard_counts hg).1
  rw [hfresh] at this
  exact absurd this (lt_irrefl 0)

theorem Inv.lease_counts (h : s.Inv) (hc : c ∈ s.leases) : 0 < (s.controls c).work := by
  have hpos : 0 < s.leases.count c := List.count_pos_iff.mpr hc
  rw [h.work, claimsOf]
  omega

theorem Inv.lease_lt (h : s.Inv) (hc : c ∈ s.leases) : c < s.made := by
  refine h.lt_made fun hfresh => ?_
  have := h.lease_counts hc
  rw [hfresh] at this
  exact absurd this (lt_irrefl 0)

/-- A block with a guard or a lease is not idle, so that it is not retired. -/
theorem Inv.not_retired (h : s.Inv)
    (hbusy : 0 < (s.controls c).submissions ∨ 0 < (s.controls c).work) :
    (s.controls c).retired ≠ true := by
  intro hret
  have hidle := (h.retired c hret).2
  simp only [Control.idle, Bool.and_eq_true, decide_eq_true_eq] at hidle
  omega

theorem idle_eq_true {x : Control} : x.idle = true ↔ x.submissions = 0 ∧ x.work = 0 := by
  simp [Control.idle]

theorem guardsOf_erase (hg : g ∈ s.guards) (d : ℕ) :
    s.guardsOf d = (s.guards.erase g).countP (fun x => x.control = d) +
      if g.control = d then 1 else 0 := by
  unfold guardsOf
  rw [(List.perm_cons_erase hg).countP_eq, List.countP_cons]
  simp only [decide_eq_true_eq]

theorem owning_erase (hg : g ∈ s.guards) (d : ℕ) :
    s.guards.countP (fun x => x.control = d ∧ x.ownsWork = true) =
      (s.guards.erase g).countP (fun x => x.control = d ∧ x.ownsWork = true) +
        if g.control = d ∧ g.ownsWork = true then 1 else 0 := by
  rw [(List.perm_cons_erase hg).countP_eq, List.countP_cons]
  simp only [decide_eq_true_eq]

/-- `submission_guard::finish`. -/
theorem Inv.finish_local (h : s.Inv) (hg : g ∈ s.guards) :
    Local s (s.finish g) g.control := by
  obtain ⟨hpos, hwork⟩ := h.guard_counts hg
  have hsub := h.submissions g.control
  have hclaims := h.work g.control
  have hguards := guardsOf_erase hg
  have hown := owning_erase hg
  refine ⟨rfl, h.guard_lt hg, fun d hd => hd, fun e he => he, fun d hd => ⟨?_, ?_, ?_⟩, ?_, ?_,
    fun hq => ⟨?_, ?_⟩, ?_, fun hret => .inl ?_⟩
  · simp [Registry.finish, update, Function.update_of_ne hd]
  · rw [hguards d, if_neg (Ne.symm hd)]
    rfl
  · unfold claimsOf
    rw [hown d, if_neg fun heq => hd heq.1.symm]
    rfl
  · have := hguards g.control
    rw [if_pos rfl] at this
    simp only [Registry.finish, update, Function.update_self, guardsOf] at *
    omega
  · have := hown g.control
    simp only [Registry.finish, update, Function.update_self, claimsOf, true_and] at *
    split_ifs at * <;> omega
  · simpa [Registry.finish, update] using hq
  · intro hidle
    rw [idle_eq_true] at hidle
    omega
  · intro hret
    refine absurd ?_ (h.not_retired (.inl hpos))
    simpa [Registry.finish, update] using hret
  · simpa [Registry.finish, update] using hret

/-- `work_lease::reset`. -/
theorem Inv.resetLease_local (h : s.Inv) (hc : c ∈ s.leases) : Local s (s.resetLease c) c := by
  have hpos := h.lease_counts hc
  have hclaims := h.work c
  refine ⟨rfl, h.lease_lt hc, fun d hd => hd, fun e he => he, fun d hd => ⟨?_, rfl, ?_⟩, ?_, ?_,
    fun hq => ⟨?_, ?_⟩, ?_, fun hret => .inl ?_⟩
  · simp [Registry.resetLease, update, Function.update_of_ne hd]
  · unfold claimsOf Registry.resetLease
    dsimp only
    rw [List.count_erase_of_ne hd]
    rfl
  · have := h.submissions c
    simpa [Registry.resetLease, update, guardsOf] using this
  · have hcount : 0 < s.leases.count c := List.count_pos_iff.mpr hc
    simp only [Registry.resetLease, update, Function.update_self, claimsOf,
      List.count_erase_self] at *
    omega
  · simpa [Registry.resetLease, update] using hq
  · intro hidle
    rw [idle_eq_true] at hidle
    omega
  · intro hret
    refine absurd ?_ (h.not_retired (.inr hpos))
    simpa [Registry.resetLease, update] using hret
  · simpa [Registry.resetLease, update] using hret

/-- `take_work_lease`. -/
theorem Inv.takeWorkLease_local (h : s.Inv) (hg : g ∈ s.guards) :
    Local s (s.takeWorkLease g) g.control := by
  have hguards := guardsOf_erase hg
  have hown := owning_erase hg
  have hcontrols : (s.takeWorkLease g).controls = s.controls := by
    unfold Registry.takeWorkLease
    split_ifs <;> rfl
  have hsame : ∀ d, (s.takeWorkLease g).guardsOf d = s.guardsOf d ∧
      (s.takeWorkLease g).claimsOf d = s.claimsOf d := by
    intro d
    by_cases htake : g.ownsWork = true
    · have h₁ := hguards d
      have h₂ := hown d
      simp only [Registry.takeWorkLease, htake, if_true, guardsOf, claimsOf, List.countP_cons,
        List.count_cons, decide_eq_true_eq, beq_iff_eq, Bool.false_eq_true, and_false, and_true,
        if_false] at *
      omega
    · unfold Registry.takeWorkLease
      rw [if_neg htake]
      exact ⟨rfl, rfl⟩
  refine ⟨?_, h.guard_lt hg, fun d hd => ?_, fun e he => ?_, fun d hd => ⟨?_, hsame d⟩, ?_, ?_,
    fun hq => ?_, fun hret => ?_, fun hret => .inl (hcontrols ▸ hret)⟩
  · unfold Registry.takeWorkLease
    split_ifs <;> rfl
  · unfold Registry.takeWorkLease registered at *
    split_ifs at hd <;> exact hd
  · unfold Registry.takeWorkLease at he
    split_ifs at he <;> exact he
  · rw [hcontrols]
  · rw [hcontrols, (hsame _).1, h.submissions]
  · rw [hcontrols, (hsame _).2, h.work]
  · rw [hcontrols]
    exact ⟨hq, id⟩
  · rw [hcontrols] at hret ⊢
    exact h.retired _ hret

/-! ## Every action -/

/-- A change of a block that keeps its counters. -/
theorem Inv.update_local (h : s.Inv) (hc : c < s.made) {f : Control → Control}
    (hsub : (f (s.controls c)).submissions = (s.controls c).submissions)
    (hwork : (f (s.controls c)).work = (s.controls c).work)
    (hstate : (s.controls c).state = .quiescing → (f (s.controls c)).state = .quiescing)
    (hret : (f (s.controls c)).retired = true →
      (f (s.controls c)).state = .quiescing ∧ (s.controls c).idle = true) :
    Local s (s.update c f) c := by
  have hself : (s.update c f).controls c = f (s.controls c) := by simp [update]
  have hidle : (f (s.controls c)).idle = (s.controls c).idle := by
    simp only [Control.idle, hsub, hwork]
  refine ⟨rfl, hc, fun d hd => hd, fun e he => he, fun d hd => ⟨?_, rfl, rfl⟩, ?_, ?_,
    fun hq => ?_, fun hr => ?_, fun hr => .inr (hret (hself ▸ hr)).2⟩
  · simp [update, Function.update_of_ne hd]
  · rw [hself, hsub]
    exact h.submissions c
  · rw [hself, hwork]
    exact h.work c
  · rw [hself, hidle]
    exact ⟨hstate hq, id⟩
  · rw [hself] at hr ⊢
    rw [hidle]
    exact hret hr

theorem Inv.mark_local (h : s.Inv) (hc : c < s.made) : Local s (s.update c mark) c :=
  h.update_local hc rfl rfl (fun _ => rfl) fun hr => ⟨rfl, (h.retired c hr).2⟩

/-- A registration is erased with the retirement of its block. -/
theorem Inv.close_local (h : s.Inv) {id : ℕ} (hid : s.queries.lookup id = some c)
    (hidle : (s.controls c).idle = true) : Local s (s.close id) c := by
  have hmem : c ∈ s.registered := List.mem_map.mpr ⟨⟨id, c⟩, Table.mem_entries.mpr hid, rfl⟩
  have hl := h.update_local (f := fun x => { mark x with retired := true }) (h.known c hmem) rfl rfl
    (fun _ => rfl) fun _ => ⟨rfl, hidle⟩
  unfold Registry.close
  rw [hid]
  dsimp only
  rw [if_pos hidle]
  refine ⟨rfl, hl.lt, fun d hd => ?_, hl.pending, hl.other, hl.submissions, hl.work, hl.closed,
    hl.retired, hl.retires⟩
  obtain ⟨e, he, rfl⟩ := List.mem_map.mp hd
  exact List.mem_map.mpr ⟨e, (List.kerase_sublist id s.queries.entries).subset he, rfl⟩

theorem Inv.refl_local (h : s.Inv) (hc : c < s.made) : Local s s c :=
  ⟨rfl, hc, fun _ hd => hd, fun _ he => he, fun _ _ => ⟨rfl, rfl, rfl⟩, h.submissions c, h.work c,
    fun hq => ⟨hq, id⟩, h.retired c, .inl⟩

/-- A call that has looked up its block. -/
theorem Inv.perform_local (h : s.Inv) {call : Call} (hc : c < s.made)
    (hp : s.perform call c = some s') : Local s s' c ∧ s'.sweep = s.sweep := by
  have hid := h.refl_local hc
  unfold Registry.perform at hp
  cases call with
  | tryBeginSubmission =>
    dsimp only at hp
    split_ifs at hp with hopen
    · cases hp
      refine ⟨⟨rfl, hc, fun d hd => hd, fun e he => he, fun d hd => ⟨?_, ?_, ?_⟩, ?_, ?_,
        fun hq => ?_, fun hr => ?_, fun hr => .inl (by simpa [update] using hr)⟩, rfl⟩
      · simp [update, Function.update_of_ne hd]
      · simp [guardsOf, Ne.symm hd]
      · simp [claimsOf, update, Ne.symm hd]
      · have := h.submissions c
        simp [guardsOf, update] at this ⊢
        omega
      · have := h.work c
        simp [claimsOf, update] at this ⊢
        omega
      · rw [hopen] at hq
        cases hq
      · have hr' : (s.controls c).retired = true := by simpa [update] using hr
        have hq := (h.retired c hr').1
        rw [hopen] at hq
        cases hq
    · cases hp
      exact ⟨hid, rfl⟩
  | tryAcquireWork =>
    dsimp only at hp
    split_ifs at hp with hopen
    · cases hp
      refine ⟨⟨rfl, hc, fun d hd => hd, fun e he => he, fun d hd => ⟨?_, rfl, ?_⟩, ?_, ?_,
        fun hq => ?_, fun hr => ?_, fun hr => .inl (by simpa [update] using hr)⟩, rfl⟩
      · simp [update, Function.update_of_ne hd]
      · simp [claimsOf, update, Ne.symm hd]
      · have := h.submissions c
        simpa [guardsOf, update] using this
      · have := h.work c
        simp [claimsOf, update] at this ⊢
        omega
      · rw [hopen] at hq
        cases hq
      · have hr' : (s.controls c).retired = true := by simpa [update] using hr
        have hq := (h.retired c hr').1
        rw [hopen] at hq
        cases hq
    · cases hp
      exact ⟨hid, rfl⟩
  | quiesce =>
    cases hp
    exact ⟨h.mark_local hc, rfl⟩
  | waitForSubmissions | waitForWork =>
    dsimp only at hp
    split_ifs at hp
    cases hp
    exact ⟨hid, rfl⟩
  | retainResources =>
    dsimp only at hp
    split_ifs at hp
    · cases hp
      exact ⟨h.update_local hc rfl rfl (fun hq => hq) (h.retired c), rfl⟩
    · cases hp
      exact ⟨hid, rfl⟩
  | releaseResources =>
    dsimp only at hp
    split_ifs at hp with hready
    · cases hp
      exact ⟨h.update_local hc rfl rfl (fun hq => hq) fun _ => hready, rfl⟩
    · cases hp
      exact ⟨hid, rfl⟩

theorem Inv.update_made (h : s.Inv) : Function.update s.controls s.made {} = s.controls := by
  rw [Function.update_eq_self_iff, h.fresh s.made le_rfl]

/-- `open_query` registers a block of its own. -/
theorem Inv.openQuery (h : s.Inv) (hsweep : s.sweep = none) (id : ℕ) : (s.openQuery id).Inv := by
  unfold Registry.openQuery
  split_ifs with hrefuse
  · exact h
  · have hcontrols := h.update_made
    refine ⟨?_, ?_, ?_, fun d hd => ?_, fun e he => Nat.lt_succ_of_lt (h.pending e he),
      fun d hd => ?_, ?_⟩
    · rw [hcontrols]
      exact h.submissions
    · rw [hcontrols]
      exact h.work
    · rw [hcontrols]
      exact h.retired
    · obtain ⟨⟨k, v⟩, he, rfl⟩ := List.mem_map.mp hd
      have hlookup := Table.mem_entries.mp he
      rw [Table.lookup_insert_eq] at hlookup
      split_ifs at hlookup
      · cases hlookup
        exact Nat.lt_succ_self _
      · exact Nat.lt_succ_of_lt (h.known v (List.mem_map.mpr ⟨⟨k, v⟩,
          Table.mem_entries.mpr hlookup, rfl⟩))
    · rw [hcontrols]
      exact h.fresh d (Nat.le_of_succ_le hd)
    · unfold SweepOk
      rw [hsweep]
      trivial

theorem Inv.find (h : s.Inv) (call : Call) (id : ℕ) : (s.find call id).Inv := by
  unfold Registry.find
  cases hid : s.queries.lookup id with
  | none => exact h
  | some c =>
    refine ⟨h.submissions, h.work, h.retired, h.known, fun e he => ?_, h.fresh, h.sweep⟩
    rcases List.mem_cons.mp he with rfl | he
    · exact h.known c (List.mem_map.mpr ⟨⟨id, c⟩, Table.mem_entries.mpr hid, rfl⟩)
    · exact h.pending e he

/-- What every step does: a closed gate stays closed, and an idle block is retired. -/
structure Proper (s s' : Registry) : Prop where
  closed : ∀ d, (s.controls d).state = .quiescing → (s'.controls d).state = .quiescing
  retires : ∀ d, (s'.controls d).retired = true →
    (s.controls d).retired = true ∨ (s.controls d).idle = true

theorem Local.proper (hl : Local s s' c) : Proper s s' :=
  ⟨fun _ hd => (hl.quiescing hd).1, fun _ hd => hl.retires_only hd⟩

theorem proper_of_controls (hcontrols : s'.controls = s.controls) : Proper s s' := by
  refine ⟨fun d hd => ?_, fun d hd => .inl ?_⟩
  · rw [hcontrols]
    exact hd
  · rwa [hcontrols] at hd

/-- A sweep keeps the invariant. -/
theorem Inv.advance (h : s.Inv) (hadvance : s.advance = some s') : s'.Inv ∧ Proper s s' := by
  have hok := h.sweep
  unfold SweepOk at hok
  unfold Registry.advance at hadvance
  split at hadvance
  · cases hadvance
  · rename_i clearing c todo hsweep
    rw [hsweep] at hok
    cases hadvance
    have hl := h.mark_local (hok.1 c (by simp))
    have hl' : Local s { s.update c mark with sweep := some (.marking clearing todo) } c :=
      ⟨hl.made, hl.lt, hl.registered, hl.pending, hl.other, hl.submissions, hl.work, hl.closed,
        hl.retired, hl.retires⟩
    refine ⟨hl'.inv h ⟨fun d hd => hok.1 d (by simp [hd]), fun hclearing d hd => ?_⟩,
      hl'.proper⟩
    by_cases hdc : d = c
    · right
      subst hdc
      simp [update, mark]
    · refine (hok.2 hclearing d hd).imp (fun hmem => ?_) fun hq => (hl'.quiescing hq).1
      exact (List.mem_cons.mp hmem).resolve_left hdc
  · cases hadvance
    exact ⟨⟨h.submissions, h.work, h.retired, h.known, h.pending, h.fresh, trivial⟩,
      proper_of_controls rfl⟩
  · rename_i hsweep
    rw [hsweep] at hok
    cases hadvance
    refine ⟨⟨h.submissions, h.work, h.retired, h.known, h.pending, h.fresh, fun d hd => ?_⟩,
      proper_of_controls rfl⟩
    exact ⟨(hok.2 rfl d hd).resolve_left (by simp), .inl hd⟩
  · rename_i c todo hsweep
    rw [hsweep] at hok
    split_ifs at hadvance with hidle
    · cases hadvance
      refine ⟨⟨h.submissions, h.work, h.retired, h.known, h.pending, h.fresh, fun d hd => ?_⟩,
        proper_of_controls rfl⟩
      obtain ⟨hq, hmem⟩ := hok d hd
      refine ⟨hq, ?_⟩
      rcases hmem with hmem | hmem
      · rcases List.mem_cons.mp hmem with rfl | hmem
        · exact .inr hidle
        · exact .inl hmem
      · exact .inr hmem
    · cases hadvance
      exact ⟨⟨h.submissions, h.work, h.retired, h.known, h.pending, h.fresh, trivial⟩,
        proper_of_controls rfl⟩
  · rename_i hsweep
    rw [hsweep] at hok
    cases hadvance
    have hstate : ∀ d, (if d ∈ s.registered then { s.controls d with retired := true }
        else s.controls d).state = (s.controls d).state := by
      intro d
      split_ifs <;> rfl
    refine ⟨⟨fun d => ?_, fun d => ?_, fun d hd => ?_, fun d hd => ?_, h.pending, fun d hd => ?_,
      trivial⟩, fun d hd => (hstate d).trans hd, fun d hd => ?_⟩
    · have := h.submissions d
      dsimp only
      split_ifs <;> exact this
    · have := h.work d
      dsimp only
      split_ifs <;> exact this
    · dsimp only at hd ⊢
      split_ifs at hd ⊢ with hreg
      · obtain ⟨hq, hidle⟩ := hok d hreg
        exact ⟨hq, hidle.resolve_left (by simp)⟩
      · exact h.retired d hd
    · cases hd
    · have hd' : s.made ≤ d := hd
      have hreg : d ∉ s.registered := fun hreg => absurd (h.known d hreg) (not_lt.mpr hd')
      dsimp only
      rw [if_neg hreg]
      exact h.fresh d hd'
    · dsimp only at hd
      split_ifs at hd with hreg
      · exact .inr ((hok d hreg).2.resolve_left (by simp))
      · exact .inl hd

/-- **One step** keeps the invariant. -/
theorem Inv.step (h : s.Inv) {a : Action} (hstep : s.step a = some s') :
    s'.Inv ∧ Proper s s' := by
  cases a with
  | openQuery id =>
    simp only [Registry.step, Option.ite_none_right_eq_some, Option.isNone_iff_eq_none,
      Option.some.injEq] at hstep
    obtain ⟨hsweep, rfl⟩ := hstep
    refine ⟨h.openQuery hsweep id, proper_of_controls ?_⟩
    unfold Registry.openQuery
    split_ifs
    · rfl
    · exact h.update_made
  | find call id =>
    simp only [Registry.step, Option.ite_none_right_eq_some, Option.some.injEq] at hstep
    obtain ⟨-, rfl⟩ := hstep
    refine ⟨h.find call id, proper_of_controls ?_⟩
    unfold Registry.find
    split <;> rfl
  | close id =>
    simp only [Registry.step, Option.ite_none_right_eq_some, Option.some.injEq] at hstep
    obtain ⟨-, rfl⟩ := hstep
    cases hid : s.queries.lookup id with
    | none =>
      unfold Registry.close
      rw [hid]
      exact ⟨h, proper_of_controls rfl⟩
    | some c =>
      by_cases hidle : (s.controls c).idle = true
      · have hl := h.close_local hid hidle
        have hsweep : (s.close id).sweep = s.sweep := by
          unfold Registry.close
          rw [hid]
          dsimp only
          rw [if_pos hidle]
          rfl
        exact ⟨hl.inv h (hl.sweepOk h.sweep hsweep), hl.proper⟩
      · unfold Registry.close
        rw [hid]
        dsimp only
        rw [if_neg hidle]
        exact ⟨h, proper_of_controls rfl⟩
  | reportFailure =>
    simp only [Registry.step, Option.ite_none_right_eq_some, Option.some.injEq] at hstep
    obtain ⟨-, rfl⟩ := hstep
    exact ⟨⟨h.submissions, h.work, h.retired, h.known, h.pending, h.fresh, h.sweep⟩,
      proper_of_controls rfl⟩
  | startSweep clearing =>
    simp only [Registry.step, Option.ite_none_right_eq_some, Option.some.injEq] at hstep
    obtain ⟨-, rfl⟩ := hstep
    exact ⟨⟨h.submissions, h.work, h.retired, h.known, h.pending, h.fresh,
      ⟨h.known, fun _ d hd => .inl hd⟩⟩, proper_of_controls rfl⟩
  | advance => exact h.advance hstep
  | perform call c =>
    simp only [Registry.step, Option.ite_none_right_eq_some] at hstep
    obtain ⟨hmem, hstep⟩ := hstep
    have herased : Inv { s with pending := s.pending.erase (call, c) } :=
      ⟨h.submissions, h.work, h.retired, h.known,
        fun e he => h.pending e (List.mem_of_mem_erase he), h.fresh, h.sweep⟩
    obtain ⟨hl, hsweep⟩ := herased.perform_local (h.pending _ hmem) hstep
    exact ⟨hl.inv herased (hl.sweepOk herased.sweep hsweep), hl.proper.closed, hl.proper.retires⟩
  | takeWorkLease g =>
    simp only [Registry.step, Option.ite_none_right_eq_some, Option.some.injEq] at hstep
    obtain ⟨hg, rfl⟩ := hstep
    have hl := h.takeWorkLease_local hg
    have hsweep : (s.takeWorkLease g).sweep = s.sweep := by
      unfold Registry.takeWorkLease
      split_ifs <;> rfl
    exact ⟨hl.inv h (hl.sweepOk h.sweep hsweep), hl.proper⟩
  | finish g =>
    simp only [Registry.step, Option.ite_none_right_eq_some, Option.some.injEq] at hstep
    obtain ⟨hg, rfl⟩ := hstep
    have hl := h.finish_local hg
    exact ⟨hl.inv h (hl.sweepOk h.sweep rfl), hl.proper⟩
  | resetLease c =>
    simp only [Registry.step, Option.ite_none_right_eq_some, Option.some.injEq] at hstep
    obtain ⟨hc, rfl⟩ := hstep
    have hl := h.resetLease_local hc
    exact ⟨hl.inv h (hl.sweepOk h.sweep rfl), hl.proper⟩

theorem inv_of_run {acts : List Action} (h : run Registry.step {} acts = some s) : s.Inv :=
  run_invariant (fun _ _ _ hinv hstep => (hinv.step hstep).1) inv_init h

/-- A closed gate stays closed in every run. -/
theorem Inv.quiescing_of_run (h : s.Inv) {acts : List Action}
    (hrun : run Registry.step s acts = some s') (hq : (s.controls c).state = .quiescing) :
    (s'.controls c).state = .quiescing := by
  have hboth : s'.Inv ∧ (s'.controls c).state = .quiescing :=
    run_invariant (I := fun s => s.Inv ∧ (s.controls c).state = .quiescing)
      (fun _ _ _ hinv hstep => ⟨(hinv.1.step hstep).1, (hinv.1.step hstep).2.closed c hinv.2⟩) ⟨h, hq⟩ hrun
  exact hboth.2

/-- A call that begins a submission or acquires work is refused at a closed gate. -/
theorem refused_of_quiescing {call : Call} (hq : (s.controls c).state = .quiescing)
    (hcall : call = .tryBeginSubmission ∨ call = .tryAcquireWork)
    (hstep : s.step (.perform call c) = some s') :
    s'.guards = s.guards ∧ s'.leases = s.leases ∧ s'.controls = s.controls := by
  simp only [Registry.step, Option.ite_none_right_eq_some] at hstep
  obtain ⟨-, hstep⟩ := hstep
  rcases hcall with rfl | rfl
  · simp only [Registry.perform, hq, reduceCtorEq, if_false, Option.some.injEq] at hstep
    subst hstep
    exact ⟨rfl, rfl, rfl⟩
  · simp only [Registry.perform, hq, reduceCtorEq, if_false, Option.some.injEq] at hstep
    subst hstep
    exact ⟨rfl, rfl, rfl⟩

/-- **The lifecycle is safe** in every reachable state. The counters of a block are the
    guards and the claims to work that exist; once a gate is quiescing it stays so, and
    no later call on that block succeeds; a step retires only a block whose counters are
    zero; and a retired block has no guard and no lease. -/
theorem lifecycle_safe {acts : List Action} {s : Registry}
    (h : run Registry.step {} acts = some s) :
    (∀ c, (s.controls c).submissions = s.guardsOf c ∧ (s.controls c).work = s.claimsOf c) ∧
    (∀ c acts' s', (s.controls c).state = .quiescing → run Registry.step s acts' = some s' →
      (s'.controls c).state = .quiescing ∧
      ∀ call s'', call = .tryBeginSubmission ∨ call = .tryAcquireWork →
        s'.step (.perform call c) = some s'' → s''.guards = s'.guards ∧ s''.leases = s'.leases) ∧
    (∀ a s' c, s.step a = some s' → (s.controls c).retired = false →
      (s'.controls c).retired = true → (s.controls c).submissions = 0 ∧ (s.controls c).work = 0) ∧
    ∀ c, (s.controls c).retired = true → (∀ g ∈ s.guards, g.control ≠ c) ∧ c ∉ s.leases := by
  have hinv := inv_of_run h
  refine ⟨fun c => ⟨hinv.submissions c, hinv.work c⟩, fun c acts' s' hq hrun => ?_,
    fun a s' c hstep hfalse htrue => ?_, fun c hret => ⟨fun g hg hc => ?_, fun hc => ?_⟩⟩
  · have hq' := hinv.quiescing_of_run hrun hq
    refine ⟨hq', fun call s'' hcall hstep => ?_⟩
    obtain ⟨hguards, hleases, -⟩ := refused_of_quiescing hq' hcall hstep
    exact ⟨hguards, hleases⟩
  · rcases (hinv.step hstep).2.retires c htrue with hret | hidle
    · rw [hfalse] at hret
      cases hret
    · exact idle_eq_true.mp hidle
  · refine hinv.not_retired (.inl ?_) hret
    exact hc ▸ (hinv.guard_counts hg).1
  · exact hinv.not_retired (.inr (hinv.lease_counts hc)) hret

/-- A guard passes its claim on and finishes while its query is closed, and the lease is
    reset before the resources are released. -/
def retirementRun : List Action :=
  [.openQuery 7, .find .tryBeginSubmission 7, .find .tryAcquireWork 7,
    .perform .tryBeginSubmission 0, .takeWorkLease ⟨0, true⟩, .find .quiesce 7,
    .perform .quiesce 0, .perform .tryAcquireWork 0, .finish ⟨0, false⟩, .resetLease 0,
    .find .releaseResources 7, .perform .releaseResources 0]

theorem lifecycle_safe_retirement :
    ∃ s, run Registry.step {} retirementRun = some s ∧ (s.controls 0).retired = true ∧
      (s.controls 0).work = s.claimsOf 0 ∧ 0 ∉ s.leases := by
  obtain ⟨s, h, hret⟩ : ∃ s, run Registry.step {} retirementRun = some s ∧
      (s.controls 0).retired = true := ⟨_, rfl, rfl⟩
  obtain ⟨hcounts, -, -, hretired⟩ := lifecycle_safe h
  exact ⟨s, h, hret, (hcounts 0).2, (hretired 0 hret).2⟩

end Registry

end Sirius.Exec
