import Sirius.Common.Assoc
import Sirius.Common.Rotation
import Sirius.Planner.PrefetchOrder

/-!
# The prefetching scheduler

Model of `prefetching_scheduler` (src/scan_manager/prefetching_scheduler.cpp:34-206): a cursor over
the groups of a prefetching order. A group is served round-robin, each member for a quantum of picks,
and is left when every member is depleted. The loop of `advance` is run with fuel; that the fuel is
enough is `advance_returns`.

* `Scheduler`, `reset`, `update`, `getNext`, `peekNext`, `focusMember`: the operations.
* `Wf`: what `reset` builds and every operation keeps.
* `advance_returns`: where `advance` leaves the cursor.
-/

namespace Sirius.ScanManager.PrefetchingScheduler

open Sirius.Common Sirius.Planner.PipelineDag

/-! ## The order -/

/-- `prefetch_step`, whose scan may be null. -/
structure Step (α : Type) where
  scan : Option α
  branchId : ℕ
  mode : SchedulingMode
  count : ℕ
  deriving Repr

/-- `scan_stage`. -/
inductive ScanStage where
  | none
  | initialized
  | queued
  | preparing
  | reading
  | disposed
  deriving DecidableEq, Repr

variable {α : Type}

/-- `quantum_of` (lines 34-42). -/
def quantumOf (step : Step α) : ℕ :=
  match step.mode with
  | .barrierAll => 2 ^ 64 - 1
  | .pipeline => 1
  | .barrierSerial => max step.count 1

/-- `continues_group` (lines 46-59). -/
def continuesGroup (prev cur : Step α) : Bool :=
  match cur.mode with
  | .barrierAll => false
  | .barrierSerial => prev.mode = .barrierSerial && prev.branchId = cur.branchId
  | .pipeline => prev.mode = .pipeline

structure Entry (α : Type) where
  scan : α
  operatorId : ℕ
  branchId : ℕ
  mode : SchedulingMode
  quantum : ℕ
  stage : ScanStage
  depleted : Bool
  deriving Repr

structure Scheduler (α : Type) where
  entries : List (Entry α) := []
  groups : List (List ℕ) := []
  byOperator : List (ℕ × ℕ) := []
  group : ℕ := 0
  member : ℕ := 0
  emitted : ℕ := 0

/-! ## The cursor -/

namespace Scheduler

/-- The entry at an index is live. -/
def live (s : Scheduler α) (idx : ℕ) : Bool :=
  match s.entries[idx]? with
  | some e => !e.depleted
  | none => false

/-- The member of a group at a position is live. -/
def liveAt (s : Scheduler α) (g : List ℕ) (k : ℕ) : Bool :=
  match g[k]? with
  | some idx => s.live idx
  | none => false

/-- `group_depleted` (lines 112-115). -/
def groupDepleted (s : Scheduler α) (g : List ℕ) : Bool := g.all fun idx => !s.live idx

/-- The entry under the cursor. -/
def cursor (s : Scheduler α) : Option (Entry α) := do
  let g ← s.groups[s.group]?
  let idx ← g[s.member]?
  s.entries[idx]?

/-- One turn of the loop of `advance` (lines 119-137), or `none` when it returns. -/
def advanceStep (s : Scheduler α) : Option (Scheduler α) :=
  match s.groups[s.group]? with
  | none => none
  | some g =>
    if g.isEmpty || s.groupDepleted g then
      some { s with group := s.group + 1, member := 0, emitted := 0 }
    else
      match s.cursor with
      | none => none
      | some e =>
        if !e.depleted && s.emitted < e.quantum then none
        else some { s with member := (s.member + 1) % g.length, emitted := 0 }

/-- The loop, for at most `fuel` turns. -/
def advanceLoop : ℕ → Scheduler α → Option (Scheduler α)
  | 0, _ => none
  | fuel + 1, s =>
    match s.advanceStep with
    | none => some s
    | some s' => advanceLoop fuel s'

/-- `advance`; `none` when the loop does not end within as many turns as there are groups and
    members. -/
def advance (s : Scheduler α) : Option (Scheduler α) :=
  advanceLoop (s.groups.length + (s.groups.map List.length).sum + 1) s

/-! ## The operations -/

/-- `update` (lines 98-110). -/
def update (s : Scheduler α) (operatorId : ℕ) (stage : ScanStage) : Option (Scheduler α) :=
  match s.byOperator.lookup operatorId with
  | none => some s
  | some idx =>
    advance { s with entries := s.entries.modify idx fun e =>
      { e with stage := stage, depleted := e.depleted || decide (stage = .disposed) } }

/-- `get_next_prefetching_operator` (lines 147-155). -/
def getNext (s : Scheduler α) : Option (Scheduler α × Option (Entry α)) := do
  let s ← s.advance
  match s.cursor with
  | none => return (s, none)
  | some e => return ({ s with emitted := s.emitted + 1 }, some e)

/-- `peek_next_operator_id` (lines 157-165). -/
def peekNext (s : Scheduler α) : Option ℕ :=
  match s.cursor with
  | none => none
  | some e => if e.depleted then none else some e.operatorId

/-- The position of a live member of a group, by its operator. -/
def memberOf (s : Scheduler α) (g : List ℕ) (operatorId : ℕ) : Option ℕ :=
  g.findIdx? fun idx =>
    match s.entries[idx]? with
    | some e => e.operatorId = operatorId && !e.depleted
    | none => false

/-- `focus_member` (lines 192-206). -/
def focusMember (s : Scheduler α) (operatorId : ℕ) : Scheduler α × Bool :=
  match s.groups[s.group]? with
  | none => (s, false)
  | some g =>
    match s.memberOf g operatorId with
    | none => (s, false)
    | some i => if s.member ≠ i then ({ s with member := i, emitted := 0 }, true) else (s, true)

end Scheduler

/-! ## Building the groups -/

section Reset

variable (operatorId : α → Option ℕ)

/-- The last group takes the index. -/
def addToLast (groups : List (List ℕ)) (idx : ℕ) : List (List ℕ) :=
  groups.modify (groups.length - 1) (· ++ [idx])

/-- One step of the order (lines 68-89). -/
def addStep (s : Scheduler α × Option (Step α)) (step : Step α) : Scheduler α × Option (Step α) :=
  match step.scan with
  | none => s
  | some scan =>
    match operatorId scan with
    | none => s
    | some id =>
      if (s.1.byOperator.lookup id).isSome then s
      else
        let continues := match s.2 with
          | none => false
          | some prev => continuesGroup prev step
        let idx := s.1.entries.length
        ({ s.1 with
            groups := if continues then addToLast s.1.groups idx else s.1.groups ++ [[idx]]
            byOperator := s.1.byOperator ++ [(id, idx)]
            entries := s.1.entries ++
              [⟨scan, id, step.branchId, step.mode, quantumOf step, .none, false⟩] }, some step)

/-- `reset` (lines 63-94). -/
def reset (order : List (Step α)) : Option (Scheduler α) :=
  (order.foldl (addStep operatorId) ({}, none)).1.advance

end Reset

/-! ## Well-formed schedulers -/

/-- The table of a scheduler: every entry stands in one place of one group, under its operator. -/
structure Table (operatorId : α → Option ℕ) (s : Scheduler α) : Prop where
  flat : s.groups.flatten = List.range s.entries.length
  nonempty : ∀ g ∈ s.groups, g ≠ []
  ids : (s.entries.map Entry.operatorId).Nodup
  scans : ∀ e ∈ s.entries, operatorId e.scan = some e.operatorId
  byOperator : s.byOperator = (s.entries.map Entry.operatorId).zipIdx
  quantum : ∀ e ∈ s.entries, 0 < e.quantum

/-- The cursor stands on a member of its group, and nothing before its group is live. -/
structure Wf (operatorId : α → Option ℕ) (s : Scheduler α) : Prop extends Table operatorId s where
  member : ∀ g, s.groups[s.group]? = some g → s.member < g.length
  past : ∀ i < s.group, ∀ g, s.groups[i]? = some g → s.groupDepleted g

section Cursor

variable {operatorId : α → Option ℕ} {s : Scheduler α} {g : List ℕ}

theorem Table.idx_lt (h : Table operatorId s) (hg : g ∈ s.groups) {idx : ℕ} (hidx : idx ∈ g) :
    idx < s.entries.length := by
  have hmem : idx ∈ s.groups.flatten := List.mem_flatten.mpr ⟨g, hg, hidx⟩
  rw [h.flat] at hmem
  exact List.mem_range.mp hmem

theorem groupDepleted_iff : s.groupDepleted g ↔ ∀ k < g.length, ¬s.liveAt g k := by
  unfold Scheduler.groupDepleted
  rw [List.all_eq_true, List.forall_mem_iff_getElem]
  refine forall_congr' fun k => forall_congr' fun hk => ?_
  simp [Scheduler.liveAt, List.getElem?_eq_getElem hk]

/-- The entry at a place of a group. -/
theorem Table.entry (h : Table operatorId s) (hg : g ∈ s.groups) {k : ℕ} (hk : k < g.length) :
    ∃ idx e, g[k]? = some idx ∧ s.entries[idx]? = some e ∧ s.liveAt g k = !e.depleted := by
  have hidx := h.idx_lt hg (List.getElem_mem hk)
  refine ⟨g[k], s.entries[g[k]], List.getElem?_eq_getElem hk, List.getElem?_eq_getElem hidx, ?_⟩
  simp [Scheduler.liveAt, Scheduler.live, List.getElem?_eq_getElem hk,
    List.getElem?_eq_getElem hidx]

theorem cursor_eq {idx : ℕ} {e : Entry α} (hg : s.groups[s.group]? = some g)
    (hidx : g[s.member]? = some idx) (he : s.entries[idx]? = some e) : s.cursor = some e := by
  simp [Scheduler.cursor, hg, hidx, he]

theorem cursor_none (hg : s.groups[s.group]? = none) : s.cursor = none := by
  simp [Scheduler.cursor, hg]

/-- The cursor of a well-formed scheduler. -/
theorem Wf.cursor (h : Wf operatorId s) (hg : s.groups[s.group]? = some g) :
    ∃ e, s.cursor = some e ∧ e ∈ s.entries ∧ s.liveAt g s.member = !e.depleted := by
  obtain ⟨idx, e, hidx, he, hlive⟩ := h.entry (List.mem_of_getElem? hg) (h.member g hg)
  exact ⟨e, cursor_eq hg hidx he, List.mem_of_getElem? he, hlive⟩

/-! ## The loop of `advance` -/

/-- The cursor on another member of the group. -/
def onMember (s : Scheduler α) (m : ℕ) : Scheduler α := { s with member := m, emitted := 0 }

/-- The cursor at the start of another group. -/
def onGroup (s : Scheduler α) (i : ℕ) : Scheduler α :=
  { s with group := i, member := 0, emitted := 0 }

theorem advanceStep_none (hg : s.groups[s.group]? = none) : s.advanceStep = none := by
  simp [Scheduler.advanceStep, hg]

theorem advanceStep_depleted (hg : s.groups[s.group]? = some g) (hdepleted : s.groupDepleted g) :
    s.advanceStep = some (onGroup s (s.group + 1)) := by
  simp [Scheduler.advanceStep, hg, hdepleted, onGroup]

theorem advanceStep_live {e : Entry α} (hg : s.groups[s.group]? = some g) (hne : g ≠ [])
    (hlive : ¬s.groupDepleted g) (he : s.cursor = some e) :
    s.advanceStep = if !e.depleted && s.emitted < e.quantum then none
      else some (onMember s ((s.member + 1) % g.length)) := by
  simp [Scheduler.advanceStep, hg, hne, hlive, he, onMember]

theorem advanceLoop_mono {fuel fuel' : ℕ} {t : Scheduler α} (hle : fuel ≤ fuel')
    (h : Scheduler.advanceLoop fuel s = some t) : Scheduler.advanceLoop fuel' s = some t := by
  induction fuel generalizing s fuel' with
  | zero => cases h
  | succ fuel ih =>
    obtain ⟨fuel', rfl⟩ : ∃ k, fuel' = k + 1 := ⟨fuel' - 1, by omega⟩
    unfold Scheduler.advanceLoop at h ⊢
    cases hstep : s.advanceStep with
    | none => rwa [hstep] at h
    | some s' =>
      rw [hstep] at h
      exact ih (by omega) h

theorem advanceLoop_stop {fuel : ℕ} (h : s.advanceStep = none) :
    Scheduler.advanceLoop (fuel + 1) s = some s := by
  simp [Scheduler.advanceLoop, h]

theorem advanceLoop_step {fuel : ℕ} {s' : Scheduler α} (h : s.advanceStep = some s') :
    Scheduler.advanceLoop (fuel + 1) s = Scheduler.advanceLoop fuel s' := by
  simp [Scheduler.advanceLoop, h]

/-- A fresh member is left when it is depleted, and served when it is live. -/
theorem advanceLoop_rotate (h : Table operatorId s) (hg : s.groups[s.group]? = some g)
    {m d : ℕ} (hm : m < g.length) (hlive : s.liveAt g ((m + d) % g.length))
    (hbefore : ∀ e < d, ¬s.liveAt g ((m + e) % g.length)) :
    Scheduler.advanceLoop (d + 1) (onMember s m)
      = some (onMember s ((m + d) % g.length)) := by
  have hmem := List.mem_of_getElem? hg
  have hne : g ≠ [] := by
    rintro rfl
    simp at hm
  have hsome : ¬s.groupDepleted g := by
    intro hdepleted
    exact groupDepleted_iff.mp hdepleted _ (Nat.mod_lt _ (by omega)) hlive
  induction d generalizing m with
  | zero =>
    have hzero : (m + 0) % g.length = m := by rw [Nat.add_zero, Nat.mod_eq_of_lt hm]
    rw [hzero] at hlive ⊢
    obtain ⟨idx, e, hidx, he, heq⟩ := h.entry hmem hm
    refine advanceLoop_stop ?_
    rw [advanceStep_live (s := onMember s m) hg hne hsome (cursor_eq (s := onMember s m) hg hidx he)]
    have hquantum := h.quantum e (List.mem_of_getElem? he)
    rw [heq] at hlive
    simp [onMember, hlive, hquantum]
  | succ d ih =>
    obtain ⟨idx, e, hidx, he, heq⟩ := h.entry hmem hm
    have hdead : ¬s.liveAt g m := by
      have hzero := hbefore 0 (by omega)
      rwa [Nat.add_zero, Nat.mod_eq_of_lt hm] at hzero
    have hstep : (onMember s m).advanceStep = some (onMember s ((m + 1) % g.length)) := by
      rw [advanceStep_live (s := onMember s m) hg hne hsome
        (cursor_eq (s := onMember s m) hg hidx he)]
      rw [heq] at hdead
      have hdepleted : e.depleted = true := by simpa using hdead
      simp [hdepleted, onMember]
    have hshift : ∀ x, ((m + 1) % g.length + x) % g.length = (m + (x + 1)) % g.length := by
      intro x
      rw [Nat.mod_add_mod, show m + 1 + x = m + (x + 1) by omega]
    rw [advanceLoop_step hstep, ih (Nat.mod_lt _ (by omega)) (by rwa [hshift])
      (fun e he => by rw [hshift]; exact hbefore (e + 1) (by omega)), hshift]

/-- Depleted groups are passed. -/
theorem advanceLoop_pass {fuel i k : ℕ} (hk : i + k ≤ s.groups.length)
    (h : ∀ j, i ≤ j → j < i + k → ∀ g, s.groups[j]? = some g → s.groupDepleted g) :
    Scheduler.advanceLoop (k + fuel) (onGroup s i)
      = Scheduler.advanceLoop fuel (onGroup s (i + k)) := by
  induction k generalizing i with
  | zero => rw [Nat.zero_add, Nat.add_zero]
  | succ k ih =>
    have hlt : i < s.groups.length := by omega
    have hg : (onGroup s i).groups[(onGroup s i).group]? = some s.groups[i] :=
      List.getElem?_eq_getElem hlt
    have hdepleted := h i le_rfl (by omega) s.groups[i] (List.getElem?_eq_getElem hlt)
    rw [show k + 1 + fuel = k + fuel + 1 by omega,
      advanceLoop_step (advanceStep_depleted hg hdepleted)]
    have hrest := ih (i := i + 1) (by omega) fun j hj hj' => h j (by omega) (by omega)
    rw [show i + (k + 1) = i + 1 + k by omega]
    exact hrest

/-- The member under the cursor is live and its quantum is not used up. -/
def Servable (s : Scheduler α) : Prop :=
  ∃ e, s.cursor = some e ∧ e.depleted = false ∧ s.emitted < e.quantum

/-- Where `advance` leaves the cursor: on a member that is served on, on the next live member of the
    group, on the first live member of the next live group, or behind the last group. -/
inductive Landing (s : Scheduler α) : Scheduler α → Prop where
  | stay (h : Servable s) : Landing s s
  | rotate {g : List ℕ} {j : ℕ} (hg : s.groups[s.group]? = some g) (hspent : ¬Servable s)
      (hj : firstFrom g.length (s.liveAt g) ((s.member + 1) % g.length) = some j) :
      Landing s (onMember s j)
  | pass {i : ℕ} {g : List ℕ} {j : ℕ} (hi : s.group < i) (hg : s.groups[i]? = some g)
      (hpassed : ∀ k, s.group ≤ k → k < i → ∀ g, s.groups[k]? = some g → s.groupDepleted g)
      (hj : firstFrom g.length (s.liveAt g) 0 = some j) : Landing s (onMember (onGroup s i) j)
  | exhausted {s' : Scheduler α} (hs' : s' = s ∨ s' = onGroup s s.groups.length)
      (hend : s.groups.length ≤ s'.group)
      (hpassed : ∀ k, s.group ≤ k → ∀ g, s.groups[k]? = some g → s.groupDepleted g) :
      Landing s s'

theorem length_le_sum (hg : g ∈ s.groups) : g.length ≤ (s.groups.map List.length).sum :=
  List.single_le_sum (fun _ _ => Nat.zero_le _) _ (List.mem_map_of_mem hg)

/-- A search among the members of a live group ends. -/
theorem firstFrom_live (hlive : ¬s.groupDepleted g) (k : ℕ) :
    ∃ j, firstFrom g.length (s.liveAt g) k = some j := by
  cases h : firstFrom g.length (s.liveAt g) k with
  | none => exact absurd (groupDepleted_iff.mpr (firstFrom_eq_none.mp h)) hlive
  | some j => exact ⟨j, rfl⟩

/-- The next group that is live, or the end. -/
theorem exists_next_group (s : Scheduler α) {i : ℕ} (hi : i ≤ s.groups.length) :
    ∃ k, i + k ≤ s.groups.length ∧
      (∀ j, i ≤ j → j < i + k → ∀ g, s.groups[j]? = some g → s.groupDepleted g) ∧
      ∀ g, s.groups[i + k]? = some g → ¬s.groupDepleted g := by
  induction hn : s.groups.length - i generalizing i with
  | zero =>
    refine ⟨0, by omega, fun j hj hj' => by omega, fun g hg => ?_⟩
    rw [List.getElem?_eq_none (by omega)] at hg
    cases hg
  | succ n ih =>
    have hlt : i < s.groups.length := by omega
    by_cases hdepleted : s.groupDepleted s.groups[i]
    · obtain ⟨k, hk, hpassed, hnext⟩ := ih (i := i + 1) (by omega) (by omega)
      refine ⟨k + 1, by omega, fun j hj hj' g hg => ?_, ?_⟩
      · rcases Nat.eq_or_lt_of_le hj with rfl | hlt'
        · rw [List.getElem?_eq_getElem hlt] at hg
          obtain rfl := Option.some.inj hg
          exact hdepleted
        · exact hpassed j (by omega) (by omega) g hg
      · rwa [show i + (k + 1) = i + 1 + k by omega]
    · refine ⟨0, by omega, fun j hj hj' => by omega, fun g hg => ?_⟩
      rw [Nat.add_zero, List.getElem?_eq_getElem hlt] at hg
      obtain rfl := Option.some.inj hg
      exact hdepleted

/-- **`advance` returns**, and its landing. -/
theorem advance_returns (h : Wf operatorId s) : ∃ s', s.advance = some s' ∧ Landing s s' := by
  unfold Scheduler.advance
  cases hg : s.groups[s.group]? with
  | none =>
    have hend : s.groups.length ≤ s.group := List.getElem?_eq_none_iff.mp hg
    refine ⟨s, advanceLoop_stop (advanceStep_none hg), .exhausted (.inl rfl) hend ?_⟩
    intro k hk g hg'
    rw [List.getElem?_eq_none (by omega)] at hg'
    cases hg'
  | some g =>
    have hmem := List.mem_of_getElem? hg
    have hne := h.nonempty g hmem
    have hlt : s.group < s.groups.length := (List.getElem?_eq_some_iff.mp hg).1
    have hlength := length_le_sum hmem
    by_cases hdepleted : s.groupDepleted g
    · obtain ⟨k, hk, hpassed, hnext⟩ := exists_next_group s (i := s.group + 1) hlt
      have hpassed' : ∀ j, s.group ≤ j → j < s.group + 1 + k → ∀ g, s.groups[j]? = some g →
          s.groupDepleted g := by
        intro j hj hj' g' hg'
        rcases Nat.eq_or_lt_of_le hj with rfl | hlt'
        · rw [hg] at hg'
          obtain rfl := Option.some.inj hg'
          exact hdepleted
        · exact hpassed j (by omega) hj' g' hg'
      have hfirst : ∀ fuel, Scheduler.advanceLoop (k + fuel + 1) s
          = Scheduler.advanceLoop fuel (onGroup s (s.group + 1 + k)) := by
        intro fuel
        rw [advanceLoop_step (advanceStep_depleted hg hdepleted), advanceLoop_pass hk hpassed]
      cases hg' : s.groups[s.group + 1 + k]? with
      | none =>
        have hend : s.group + 1 + k = s.groups.length := by
          have hle := List.getElem?_eq_none_iff.mp hg'
          omega
        have hstop : Scheduler.advanceLoop (k + 1 + 1) s
            = some (onGroup s (s.group + 1 + k)) := by
          rw [hfirst]
          exact advanceLoop_stop (advanceStep_none (s := onGroup s (s.group + 1 + k)) hg')
        refine ⟨_, advanceLoop_mono (by omega) hstop, .exhausted (.inr ?_) ?_ ?_⟩
        · rw [hend]
        · exact hend.ge
        · intro j hj g' hg'
          exact hpassed' j hj
            (by rw [hend]; exact (List.getElem?_eq_some_iff.mp hg').1) g' hg'
      | some g' =>
        have hmem' := List.mem_of_getElem? hg'
        have hlength' := length_le_sum hmem'
        have hpos : 0 < g'.length := List.length_pos_iff.mpr (h.nonempty g' hmem')
        obtain ⟨j, hj⟩ := firstFrom_live (hnext g' hg') 0
        obtain ⟨d, hd, rfl, hlive, hbefore⟩ := exists_distance hj
        have hrotate := advanceLoop_rotate (s := onGroup s (s.group + 1 + k)) { h with } hg' hpos
          hlive hbefore
        have hloop : Scheduler.advanceLoop (k + (d + 1) + 1) s
            = some (onMember (onGroup s (s.group + 1 + k)) ((0 + d) % g'.length)) := by
          rw [hfirst]
          exact hrotate
        exact ⟨_, advanceLoop_mono (by omega) hloop, .pass (by omega) hg' hpassed' hj⟩
    · obtain ⟨e, he, hmem_e, hlive⟩ := h.cursor hg
      have hstep := advanceStep_live hg hne hdepleted he
      by_cases hserve : e.depleted = false ∧ s.emitted < e.quantum
      · refine ⟨s, advanceLoop_stop ?_, .stay ⟨e, he, hserve⟩⟩
        rw [hstep]
        simp [hserve.1, hserve.2]
      · have hspent : ¬Servable s := by
          rintro ⟨e', he', hserve'⟩
          rw [he] at he'
          obtain rfl := Option.some.inj he'
          exact hserve hserve'
        have hrotated : s.advanceStep = some (onMember s ((s.member + 1) % g.length)) := by
          rw [hstep, if_neg]
          simpa using hserve
        have hpos : 0 < g.length := List.length_pos_iff.mpr hne
        obtain ⟨j, hj⟩ := firstFrom_live hdepleted ((s.member + 1) % g.length)
        obtain ⟨d, hd, rfl, hlive, hbefore⟩ := exists_distance hj
        have hloop : Scheduler.advanceLoop (d + 1 + 1) s
            = some (onMember s (((s.member + 1) % g.length + d) % g.length)) := by
          rw [advanceLoop_step hrotated]
          exact advanceLoop_rotate h.toTable hg (Nat.mod_lt _ hpos) hlive hbefore
        exact ⟨_, advanceLoop_mono (by omega) hloop, .rotate hg hspent hj⟩

/-! ## What `advance` keeps -/

variable {s' : Scheduler α}

theorem Landing.frame (hl : Landing s s') :
    s'.entries = s.entries ∧ s'.groups = s.groups ∧ s'.byOperator = s.byOperator := by
  cases hl with
  | stay | rotate | pass => exact ⟨rfl, rfl, rfl⟩
  | exhausted hs' =>
    rcases hs' with rfl | rfl
    · exact ⟨rfl, rfl, rfl⟩
    · exact ⟨rfl, rfl, rfl⟩

/-- A live member is served from the start of its quantum. -/
theorem servable_onMember (h : Table operatorId s) (hg : s.groups[s.group]? = some g) {j : ℕ}
    (hj : j < g.length) (hlive : s.liveAt g j) : Servable (onMember s j) := by
  obtain ⟨idx, e, hidx, he, heq⟩ := h.entry (List.mem_of_getElem? hg) hj
  rw [heq] at hlive
  refine ⟨e, cursor_eq (s := onMember s j) hg hidx he, by simpa using hlive, ?_⟩
  exact h.quantum e (List.mem_of_getElem? he)

/-- **`advance` keeps the scheduler well formed** and leaves the cursor on a member to serve. -/
theorem Landing.wf (h : Wf operatorId s) (hl : Landing s s') :
    Wf operatorId s' ∧ (Servable s' ∨ s'.groups[s'.group]? = none) := by
  cases hl with
  | stay hserve => exact ⟨h, .inl hserve⟩
  | @rotate g j hg hspent hj =>
    obtain ⟨hlt, hlive⟩ := firstFrom_spec hj
    refine ⟨{ h with member := fun g' hg' => ?_ }, .inl (servable_onMember h.toTable hg hlt hlive)⟩
    obtain rfl := Option.some.inj (hg.symm.trans hg')
    exact hlt
  | @pass i g j hi hg hpassed hj =>
    obtain ⟨hlt, hlive⟩ := firstFrom_spec hj
    refine ⟨{ h with member := fun g' hg' => ?_, past := fun k hk g' hg' => ?_ },
      .inl (servable_onMember (s := onGroup s i) { h with } hg hlt hlive)⟩
    · obtain rfl := Option.some.inj (hg.symm.trans hg')
      exact hlt
    · by_cases hlt' : k < s.group
      · exact h.past k hlt' g' hg'
      · exact hpassed k (by omega) hk g' hg'
  | exhausted hs' hend hpassed =>
    have hgroups : s'.groups = s.groups := by rcases hs' with rfl | rfl <;> rfl
    have hnone : s'.groups[s'.group]? = none := by
      rw [hgroups]
      exact List.getElem?_eq_none hend
    refine ⟨?_, .inr hnone⟩
    rcases hs' with rfl | rfl
    · exact h
    · refine { h with member := fun g' hg' => ?_, past := fun k hk g' hg' => ?_ }
      · rw [hnone] at hg'
        cases hg'
      · by_cases hlt : k < s.group
        · exact h.past k hlt g' hg'
        · exact hpassed k (by omega) g' hg'

end Cursor

/-! ## Depletion -/

section Deplete

variable {operatorId : α → Option ℕ} {s : Scheduler α}

/-- The report of a stage for an entry. -/
def reported (s : Scheduler α) (idx : ℕ) (stage : ScanStage) : Scheduler α :=
  { s with entries := s.entries.modify idx fun e =>
    { e with stage := stage, depleted := e.depleted || decide (stage = .disposed) } }

theorem map_reported {β : Type} (f : Entry α → β) (idx : ℕ) (stage : ScanStage)
    (hf : ∀ (e : Entry α) depleted, f { e with stage := stage, depleted := depleted } = f e) :
    (reported s idx stage).entries.map f = s.entries.map f := by
  apply List.ext_getElem?
  intro i
  simp only [reported, List.getElem?_map, List.getElem?_modify]
  cases s.entries[i]? with
  | none => simp
  | some e =>
    by_cases hi : idx = i
    · simp [hi, hf]
    · simp [hi]

/-- What is live after a report was live before. -/
theorem liveAt_reported {idx : ℕ} {stage : ScanStage} {g : List ℕ} {k : ℕ}
    (h : (reported s idx stage).liveAt g k) : s.liveAt g k := by
  unfold Scheduler.liveAt at h ⊢
  cases hk : g[k]? with
  | none => simp [hk] at h
  | some i =>
    simp only [hk, Scheduler.live, reported, List.getElem?_modify] at h ⊢
    cases he : s.entries[i]? with
    | none => simp [he] at h
    | some e =>
      by_cases hi : idx = i
      · simp [he, hi] at h
        simp [h]
      · simpa [he, hi] using h

theorem groupDepleted_reported {idx : ℕ} {stage : ScanStage} {g : List ℕ}
    (h : s.groupDepleted g) : (reported s idx stage).groupDepleted g :=
  groupDepleted_iff.mpr fun k hk hlive => groupDepleted_iff.mp h k hk (liveAt_reported hlive)

theorem Wf.reported (h : Wf operatorId s) (idx : ℕ) (stage : ScanStage) :
    Wf operatorId (reported s idx stage) where
  flat := by
    have hlength := congrArg List.length (map_reported (s := s) (fun _ => ()) idx stage
      fun _ _ => rfl)
    rw [List.length_map, List.length_map] at hlength
    rw [hlength]
    exact h.flat
  nonempty := h.nonempty
  ids := by
    rw [map_reported Entry.operatorId idx stage fun _ _ => rfl]
    exact h.ids
  scans := by
    have hmap : ∀ p ∈ s.entries.map fun e => (e.scan, e.operatorId), operatorId p.1 = some p.2 := by
      intro p hp
      obtain ⟨e, he, rfl⟩ := List.mem_map.mp hp
      exact h.scans e he
    rw [← map_reported (fun e => (e.scan, e.operatorId)) idx stage fun _ _ => rfl] at hmap
    exact fun e he => hmap _ (List.mem_map_of_mem he)
  byOperator := by
    rw [map_reported Entry.operatorId idx stage fun _ _ => rfl]
    exact h.byOperator
  quantum := by
    have hmap : ∀ q ∈ s.entries.map Entry.quantum, 0 < q := by
      intro q hq
      obtain ⟨e, he, rfl⟩ := List.mem_map.mp hq
      exact h.quantum e he
    rw [← map_reported Entry.quantum idx stage fun _ _ => rfl] at hmap
    exact fun e he => hmap _ (List.mem_map_of_mem he)
  member := h.member
  past := fun i hi g hg => groupDepleted_reported (h.past i hi g hg)

end Deplete

/-! ## What `reset` builds -/

section Reset

variable {operatorId : α → Option ℕ}

theorem quantumOf_pos (step : Step α) : 0 < quantumOf step := by
  unfold quantumOf
  cases step.mode with
  | barrierAll => norm_num
  | pipeline => norm_num
  | barrierSerial => exact lt_max_of_lt_right Nat.one_pos

theorem flatten_addToLast {groups : List (List ℕ)} (h : groups ≠ []) (idx : ℕ) :
    (addToLast groups idx).flatten = groups.flatten ++ [idx] ∧
      ∀ g ∈ addToLast groups idx, g ∈ groups ∨ g ≠ [] := by
  obtain ⟨init, last, rfl⟩ := (List.eq_nil_or_concat groups).resolve_left h
  have hlast : addToLast (init ++ [last]) idx = init ++ [last ++ [idx]] := by
    unfold addToLast
    rw [List.length_append, List.length_singleton, Nat.add_sub_cancel,
      List.modify_eq_set_getElem?]
    simp
  rw [List.concat_eq_append, hlast]
  constructor
  · simp
  · intro g hg
    rcases List.mem_append.mp hg with hg | hg
    · exact .inl (List.mem_append_left _ hg)
    · rw [List.mem_singleton.mp hg]
      exact .inr (by simp)

/-- A new entry in the last place of the groups. -/
theorem Table.add {s : Scheduler α} (h : Table operatorId s) {e : Entry α} {groups : List (List ℕ)}
    (hscan : operatorId e.scan = some e.operatorId) (hquantum : 0 < e.quantum)
    (hnew : ¬(s.byOperator.lookup e.operatorId).isSome)
    (hflat : groups.flatten = s.groups.flatten ++ [s.entries.length])
    (hnonempty : ∀ g ∈ groups, g ≠ []) :
    Table operatorId { s with
      groups := groups
      byOperator := s.byOperator ++ [(e.operatorId, s.entries.length)]
      entries := s.entries ++ [e] } where
  flat := by
    show groups.flatten = List.range (s.entries ++ [e]).length
    rw [hflat, h.flat, List.length_append, List.length_singleton, List.range_succ]
  nonempty := hnonempty
  ids := by
    show ((s.entries ++ [e]).map Entry.operatorId).Nodup
    rw [List.map_append, List.map_singleton, ← List.concat_eq_append, List.nodup_concat]
    refine ⟨fun hmem => hnew ?_, h.ids⟩
    rw [← mem_keys_iff, h.byOperator, List.zipIdx_map_fst]
    exact hmem
  scans := by
    intro x hx
    rcases List.mem_append.mp hx with hx | hx
    · exact h.scans x hx
    · rw [List.mem_singleton.mp hx]
      exact hscan
  byOperator := by
    show s.byOperator ++ _ = ((s.entries ++ [e]).map Entry.operatorId).zipIdx
    rw [h.byOperator, List.map_append, List.zipIdx_append, List.length_map]
    simp
  quantum := by
    intro x hx
    rcases List.mem_append.mp hx with hx | hx
    · exact h.quantum x hx
    · rw [List.mem_singleton.mp hx]
      exact hquantum

/-- While the groups are built: the table is right, the cursor stands at the start, and a step was
    taken before only when there is a group. -/
structure Building (operatorId : α → Option ℕ) (b : Scheduler α × Option (Step α)) : Prop where
  table : Table operatorId b.1
  group : b.1.group = 0
  member : b.1.member = 0
  emitted : b.1.emitted = 0
  prev : b.2.isSome → b.1.groups ≠ []

/-- A step that continues a group follows another. -/
theorem isSome_of_continues {prev : Option (Step α)} {step : Step α}
    (h : (match prev with
      | none => false
      | some prev => continuesGroup prev step) = true) : prev.isSome := by
  cases prev with
  | none => cases h
  | some _ => rfl

theorem addStep_building {b : Scheduler α × Option (Step α)} (h : Building operatorId b)
    (step : Step α) : Building operatorId (addStep operatorId b step) := by
  unfold addStep
  cases hscan : step.scan with
  | none => exact h
  | some scan =>
    dsimp only
    cases hid : operatorId scan with
    | none => exact h
    | some id =>
      dsimp only
      by_cases hknown : (b.1.byOperator.lookup id).isSome
      · rw [if_pos hknown]
        exact h
      rw [if_neg hknown]
      refine { h with table := ?_, prev := fun _ => ?_ }
      · refine h.table.add (e := ⟨scan, id, step.branchId, step.mode, quantumOf step, .none, false⟩)
          hid (quantumOf_pos step) hknown ?_ ?_
        · split_ifs with hcontinues
          · exact (flatten_addToLast (h.prev (isSome_of_continues hcontinues)) _).1
          · rw [List.flatten_append, List.flatten_singleton]
        · intro g hg
          split_ifs at hg with hcontinues
          · rcases (flatten_addToLast (h.prev (isSome_of_continues hcontinues)) _).2 g hg with
              hold | hne
            · exact h.table.nonempty g hold
            · exact hne
          · rcases List.mem_append.mp hg with hold | hnew
            · exact h.table.nonempty g hold
            · rw [List.mem_singleton.mp hnew]
              exact List.cons_ne_nil _ _
      · show (if _ then addToLast b.1.groups _ else b.1.groups ++ [[_]]) ≠ []
        split_ifs with hcontinues
        · intro hnil
          have hflat := (flatten_addToLast (h.prev (isSome_of_continues hcontinues))
            b.1.entries.length).1
          rw [hnil] at hflat
          simp at hflat
        · simp

/-- **The groups that `reset` builds are well formed**, whatever the order. -/
theorem addSteps_wf (operatorId : α → Option ℕ) (order : List (Step α)) :
    Wf operatorId (order.foldl (addStep operatorId) ({}, none)).1 ∧
      (order.foldl (addStep operatorId) ({}, none)).1.emitted = 0 := by
  have hbuilt : Building operatorId (order.foldl (addStep operatorId) ({}, none)) := by
    have hfold : ∀ (order : List (Step α)) (b : Scheduler α × Option (Step α)),
        Building operatorId b → Building operatorId (order.foldl (addStep operatorId) b) := by
      intro order
      induction order with
      | nil => exact fun _ h => h
      | cons step order ih => exact fun b h => ih _ (addStep_building h step)
    refine hfold order _ ⟨⟨rfl, by simp, by simp, by simp, rfl, by simp⟩, rfl, rfl, rfl, by simp⟩
  refine ⟨{ hbuilt.table with member := fun g hg => ?_, past := fun i hi => ?_ }, hbuilt.emitted⟩
  · rw [hbuilt.member]
    exact List.length_pos_iff.mpr (hbuilt.table.nonempty g (List.mem_of_getElem? hg))
  · rw [hbuilt.group] at hi
    exact absurd hi (Nat.not_lt_zero i)

end Reset

end Sirius.ScanManager.PrefetchingScheduler
