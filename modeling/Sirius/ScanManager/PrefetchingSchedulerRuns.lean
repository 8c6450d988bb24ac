import Sirius.Common.Run
import Sirius.ScanManager.PrefetchingScheduler

/-!
# Runs of the prefetching scheduler

Every sequence of calls of a `prefetching_scheduler` after `reset`. A run keeps the last pick with
the number of times it was picked in a row, which is what the rotation is about.

* `step_returns`: every call returns and keeps the scheduler well formed, with the cursor on a live
  member.
* `peekNext_eq_iff`, `focusMember_iff`: when `peek_next_operator_id` and `focus_member` announce the
  next pick: when the quantum of the member under the cursor is not used up, or that member is the
  only live one.
* `Follows`: where the cursor stands after a pick, in a run without `focus_member`.
* `scheduler_contract`: the picks of every run.
-/

namespace Sirius.ScanManager.PrefetchingScheduler

open Sirius.Common

variable {α : Type} {operatorId : α → Option ℕ} {s s' : Scheduler α} {g : List ℕ}

/-! ## The next pick -/

/-- The entry that the next `get_next_prefetching_operator` returns. -/
def nextPick (s : Scheduler α) : Option (Entry α) :=
  match s.getNext with
  | some (_, pick) => pick
  | none => none

/-- The cursor stands on a live member, or behind the last group. -/
def Parked (s : Scheduler α) : Prop := ∀ e, s.cursor = some e → e.depleted = false

theorem Servable.parked (h : Servable s) : Parked s := by
  obtain ⟨e, he, hlive, -⟩ := h
  intro e' he'
  obtain rfl := Option.some.inj (he.symm.trans he')
  exact hlive

theorem parked_of_none (h : s.groups[s.group]? = none) : Parked s := by
  intro e he
  rw [cursor_none h] at he
  cases he

/-- `get_next_prefetching_operator` takes the member that `advance` lands on. -/
theorem getNext_returns (h : Wf operatorId s) : ∃ s', Landing s s' ∧
    ((∃ e, s'.cursor = some e ∧ e.depleted = false ∧ s'.emitted < e.quantum ∧
      s.getNext = some ({ s' with emitted := s'.emitted + 1 }, some e)) ∨
      s'.groups[s'.group]? = none ∧ s.getNext = some (s', none)) := by
  obtain ⟨s', hs', hland⟩ := advance_returns h
  refine ⟨s', hland, ?_⟩
  rcases (hland.wf h).2 with ⟨e, he, hlive, hquantum⟩ | hnone
  · refine .inl ⟨e, he, hlive, hquantum, ?_⟩
    simp [Scheduler.getNext, hs', he]
  · refine .inr ⟨hnone, ?_⟩
    simp [Scheduler.getNext, hs', cursor_none hnone]

/-- Nothing is passed while the cursor stands on a live member. -/
theorem not_depleted (h : Wf operatorId s) (hp : Parked s) (hg : s.groups[s.group]? = some g) :
    s.liveAt g s.member ∧ ¬s.groupDepleted g := by
  obtain ⟨e, he, -, hlive⟩ := h.cursor hg
  rw [hp e he] at hlive
  exact ⟨hlive, fun hdepleted => groupDepleted_iff.mp hdepleted _ (h.member g hg) hlive⟩

/-- From a live member `advance` stays or rotates. -/
theorem Landing.parked_cases (h : Wf operatorId s) (hp : Parked s)
    (hg : s.groups[s.group]? = some g) (hland : Landing s s') :
    (Servable s ∧ s' = s) ∨ (¬Servable s ∧ ∃ j, s' = onMember s j ∧
      firstFrom g.length (s.liveAt g) ((s.member + 1) % g.length) = some j) := by
  obtain ⟨-, hsome⟩ := not_depleted h hp hg
  cases hland with
  | stay hserve => exact .inl ⟨hserve, rfl⟩
  | @rotate g' j hg' hspent hj =>
    obtain rfl := Option.some.inj (hg.symm.trans hg')
    exact .inr ⟨hspent, j, rfl, hj⟩
  | pass hi _ hpassed => exact absurd (hpassed _ le_rfl hi g hg) hsome
  | exhausted _ _ hpassed => exact absurd (hpassed _ le_rfl g hg) hsome

/-- Behind the last group `advance` stays there. -/
theorem Landing.none_cases (hg : s.groups[s.group]? = none) (hland : Landing s s') :
    s'.groups[s'.group]? = none := by
  have hle := List.getElem?_eq_none_iff.mp hg
  cases hland with
  | stay hserve =>
    obtain ⟨e, he, -⟩ := hserve
    rw [cursor_none hg] at he
    cases he
  | rotate hg' =>
    rw [hg] at hg'
    cases hg'
  | pass hi hg' =>
    have hlt := (List.getElem?_eq_some_iff.mp hg').1
    omega
  | exhausted hs' hend =>
    refine List.getElem?_eq_none ?_
    rcases hs' with rfl | rfl <;> exact hend

/-! ## Places and operators -/

theorem Table.nodup_group (h : Table operatorId s) (hg : g ∈ s.groups) : g.Nodup := by
  have hflat : s.groups.flatten.Nodup := by
    rw [h.flat]
    exact List.nodup_range
  exact (List.nodup_flatten.mp hflat).1 g hg

/-- An operator has one place in a group. -/
theorem Table.place_unique (h : Table operatorId s) (hg : g ∈ s.groups) {i j a b : ℕ}
    {e f : Entry α} (hi : g[i]? = some a) (hj : g[j]? = some b) (he : s.entries[a]? = some e)
    (hf : s.entries[b]? = some f) (hid : e.operatorId = f.operatorId) : i = j := by
  have hab : a = b := by
    have ha : (s.entries.map Entry.operatorId)[a]? = some e.operatorId := by simp [he]
    have hb : (s.entries.map Entry.operatorId)[b]? = some e.operatorId := by simp [hf, hid]
    obtain ⟨hlt, -⟩ := List.getElem?_eq_some_iff.mp ha
    exact (List.getElem?_inj hlt h.ids).mp (ha.trans hb.symm)
  subst hab
  obtain ⟨hlt, -⟩ := List.getElem?_eq_some_iff.mp hi
  exact (List.getElem?_inj hlt (h.nodup_group hg)).mp (hi.trans hj.symm)

/-! ## Peeking and focusing -/

/-- The quantum of the member under the cursor is not used up, or no other member is live. -/
def QuantumLeft (s : Scheduler α) : Prop :=
  ∀ e g, s.cursor = some e → s.groups[s.group]? = some g →
    s.emitted < e.quantum ∨ ∀ k < g.length, s.liveAt g k → k = s.member

theorem peekNext_parked (hp : Parked s) : s.peekNext = s.cursor.map Entry.operatorId := by
  unfold Scheduler.peekNext
  cases he : s.cursor with
  | none => rfl
  | some e => simp [hp e he]

/-- **When `peek_next_operator_id` announces the next pick.** -/
theorem peekNext_eq_iff (h : Wf operatorId s) (hp : Parked s) :
    s.peekNext = (nextPick s).map Entry.operatorId ↔ QuantumLeft s := by
  rw [peekNext_parked hp]
  obtain ⟨s', hland, hnext⟩ := getNext_returns h
  cases hg : s.groups[s.group]? with
  | none =>
    have hnone := hland.none_cases hg
    have hpick : nextPick s = none := by
      rcases hnext with ⟨e, he, -⟩ | ⟨-, hget⟩
      · rw [cursor_none hnone] at he
        cases he
      · simp [nextPick, hget]
    rw [cursor_none hg, hpick]
    refine ⟨fun _ e g' he => ?_, fun _ => rfl⟩
    rw [cursor_none hg] at he
    cases he
  | some g =>
    have hmem := List.mem_of_getElem? hg
    have hlt := h.member g hg
    obtain ⟨a, e, ha, he, -⟩ := h.entry hmem hlt
    have hcursor := cursor_eq hg ha he
    have hlive := (not_depleted h hp hg).1
    have hleft : QuantumLeft s ↔
        s.emitted < e.quantum ∨ ∀ k < g.length, s.liveAt g k → k = s.member := by
      constructor
      · intro hq
        exact hq e g hcursor hg
      · intro hq e' g' he' hg'
        obtain rfl := Option.some.inj (hcursor.symm.trans he')
        obtain rfl := Option.some.inj (hg.symm.trans hg')
        exact hq
    rw [hleft, hcursor]
    rcases hland.parked_cases h hp hg with ⟨hserve, hsame⟩ | ⟨hspent, j, rfl, hj⟩
    · -- the member is served on
      rw [hsame] at hnext
      have hpick : nextPick s = some e := by
        rcases hnext with ⟨e', he', -, -, hget⟩ | ⟨hnone, -⟩
        · obtain rfl := Option.some.inj (hcursor.symm.trans he')
          simp [nextPick, hget]
        · rw [hg] at hnone
          cases hnone
      obtain ⟨e', he', -, hquantum⟩ := hserve
      obtain rfl := Option.some.inj (hcursor.symm.trans he')
      rw [hpick]
      exact ⟨fun _ => .inl hquantum, fun _ => rfl⟩
    · -- the quantum is used up
      have hused : ¬s.emitted < e.quantum := fun hlt => hspent ⟨e, hcursor, hp e hcursor, hlt⟩
      obtain ⟨hjlt, hjlive⟩ := firstFrom_spec hj
      obtain ⟨b, f, hb, hf, -⟩ := h.entry hmem hjlt
      have hcursor' : (onMember s j).cursor = some f := cursor_eq (s := onMember s j) hg hb hf
      have hpick : nextPick s = some f := by
        rcases hnext with ⟨f', hf', -, -, hget⟩ | ⟨hnone, -⟩
        · obtain rfl := Option.some.inj (hcursor'.symm.trans hf')
          simp [nextPick, hget]
        · have hsome : (onMember s j).groups[(onMember s j).group]? = some g := hg
          rw [hsome] at hnone
          cases hnone
      rw [hpick]
      constructor
      · intro heq
        have hid : f.operatorId = e.operatorId := (Option.some.inj heq).symm
        obtain rfl := h.place_unique hmem hb ha hf he hid
        exact .inr (firstFrom_back hlt hj)
      · rintro (hlt' | hsole)
        · exact absurd hlt' hused
        · obtain rfl := hsole j hjlt hjlive
          obtain rfl := Option.some.inj (ha.symm.trans hb)
          obtain rfl := Option.some.inj (he.symm.trans hf)
          rfl

/-- `peek_next_operator_id` says nothing exactly when nothing is left to pick. -/
theorem peekNext_eq_none_iff (h : Wf operatorId s) (hp : Parked s) :
    s.peekNext = none ↔ nextPick s = none := by
  rw [peekNext_parked hp, Option.map_eq_none_iff]
  obtain ⟨s', hland, hnext⟩ := getNext_returns h
  cases hg : s.groups[s.group]? with
  | none =>
    have hnone := hland.none_cases hg
    rcases hnext with ⟨e, he, -⟩ | ⟨-, hget⟩
    · rw [cursor_none hnone] at he
      cases he
    · simp [nextPick, hget, cursor_none hg]
  | some g =>
    obtain ⟨e, he, -⟩ := h.cursor hg
    have hsome : s'.groups[s'.group]? = some g := by
      rcases hland.parked_cases h hp hg with ⟨-, rfl⟩ | ⟨-, j, rfl, -⟩
      · exact hg
      · exact hg
    rcases hnext with ⟨e', -, -, -, hget⟩ | ⟨hnone, -⟩
    · simp [nextPick, hget, he]
    · rw [hsome] at hnone
      cases hnone

/-- The live member that `focus_member` finds. -/
theorem memberOf_eq_some {id i : ℕ} (h : s.memberOf g id = some i) :
    ∃ a e, g[i]? = some a ∧ s.entries[a]? = some e ∧ e.operatorId = id ∧ e.depleted = false := by
  unfold Scheduler.memberOf at h
  obtain ⟨hlt, hfound, -⟩ := List.findIdx?_eq_some_iff_getElem.mp h
  cases he : s.entries[g[i]]? with
  | none => simp [he] at hfound
  | some e =>
    simp only [he, Bool.and_eq_true, decide_eq_true_eq, Bool.not_eq_true'] at hfound
    exact ⟨g[i], e, List.getElem?_eq_getElem hlt, he, hfound.1, hfound.2⟩

/-- `focus_member` moves the cursor to a live member, leaves it there, or does nothing. -/
theorem focusMember_cases (s : Scheduler α) (id : ℕ) :
    s.focusMember id = (s, false) ∨
    ∃ g i a e, s.groups[s.group]? = some g ∧ g[i]? = some a ∧ s.entries[a]? = some e ∧
      e.operatorId = id ∧ e.depleted = false ∧
      s.focusMember id = (if s.member ≠ i then onMember s i else s, true) := by
  unfold Scheduler.focusMember
  cases hg : s.groups[s.group]? with
  | none => exact .inl rfl
  | some g =>
    dsimp only
    cases hi : s.memberOf g id with
    | none => exact .inl rfl
    | some i =>
      obtain ⟨a, e, ha, he, hid, hlive⟩ := memberOf_eq_some hi
      refine .inr ⟨g, i, a, e, rfl, ha, he, hid, hlive, ?_⟩
      dsimp only
      split_ifs <;> rfl

/-- `focus_member` keeps the scheduler well formed, with the cursor on a live member. -/
theorem focusMember_wf (h : Wf operatorId s) (hp : Parked s) (id : ℕ) :
    Wf operatorId (s.focusMember id).1 ∧ Parked (s.focusMember id).1 := by
  rcases focusMember_cases s id with heq | ⟨g, i, a, e, hg, ha, he, -, hlive, heq⟩
  · rw [heq]
    exact ⟨h, hp⟩
  · rw [heq]
    dsimp only
    split_ifs with hne
    · have hlt := (List.getElem?_eq_some_iff.mp ha).1
      refine ⟨{ h with member := fun g' hg' => ?_ }, fun e' he' => ?_⟩
      · obtain rfl := Option.some.inj (hg.symm.trans hg')
        exact hlt
      · have hcursor : (onMember s i).cursor = some e := cursor_eq (s := onMember s i) hg ha he
        obtain rfl := Option.some.inj (hcursor.symm.trans he')
        exact hlive
    · exact ⟨h, hp⟩

/-- **When the member that `focus_member` reports is the next pick**: when it was not the member
    under the cursor, or the quantum of that one is not used up. -/
theorem focusMember_iff (h : Wf operatorId s) (hp : Parked s) {id : ℕ}
    (hfocus : (s.focusMember id).2 = true) :
    (nextPick (s.focusMember id).1).map Entry.operatorId = some id ↔
      (s.cursor.map Entry.operatorId = some id → QuantumLeft s) := by
  rcases focusMember_cases s id with heq | ⟨g, i, a, e, hg, ha, he, hid, hlive, heq⟩
  · rw [heq] at hfocus
    cases hfocus
  · obtain ⟨hwf, hparked⟩ := focusMember_wf h hp id
    rw [heq] at hwf hparked ⊢
    have hlt := (List.getElem?_eq_some_iff.mp ha).1
    have hmem := List.mem_of_getElem? hg
    dsimp only at hwf hparked ⊢
    by_cases hne : s.member ≠ i
    · rw [if_pos hne] at hwf hparked ⊢
      have hcursor : (onMember s i).cursor = some e := cursor_eq (s := onMember s i) hg ha he
      have hleft : QuantumLeft (onMember s i) := by
        intro e' g' he' _
        obtain rfl := Option.some.inj (hcursor.symm.trans he')
        exact .inl (h.quantum e (List.mem_of_getElem? he))
      have hpeek := (peekNext_eq_iff hwf hparked).mpr hleft
      rw [← hpeek, peekNext_parked hparked, hcursor]
      refine ⟨fun _ hsame => ?_, fun _ => congrArg some hid⟩
      -- two members do not share an operator
      obtain ⟨b, f, hb, hf, -⟩ := h.entry hmem (h.member g hg)
      rw [cursor_eq hg hb hf] at hsame
      have hid' : f.operatorId = e.operatorId := (Option.some.inj hsame).trans hid.symm
      exact absurd (h.place_unique hmem hb ha hf he hid') hne
    · rw [if_neg hne] at hwf hparked ⊢
      obtain rfl := not_not.mp hne
      have hcursor : s.cursor.map Entry.operatorId = some id := by
        rw [cursor_eq hg ha he]
        exact congrArg some hid
      rw [← peekNext_eq_iff h hp, peekNext_parked hp, hcursor]
      exact ⟨fun hnext _ => hnext.symm, fun hnext => (hnext rfl).symm⟩

/-! ## Calls -/

/-- A pick: the place of the member, and how often in a row it was picked. -/
structure Pick where
  group : ℕ
  member : ℕ
  count : ℕ
  deriving DecidableEq, Repr

/-- A scheduler with its last pick. -/
structure Tracked (α : Type) where
  scheduler : Scheduler α
  last : Option Pick := none

/-- A call. -/
inductive Call where
  | update (id : ℕ) (stage : ScanStage)
  | focus (id : ℕ)
  | getNext
  | peek
  deriving DecidableEq, Repr

/-- The pick at the cursor, after the last one. -/
def notePick (s : Scheduler α) : Option Pick → Pick
  | none => ⟨s.group, s.member, 1⟩
  | some p =>
    if p.group = s.group ∧ p.member = s.member then { p with count := p.count + 1 }
    else ⟨s.group, s.member, 1⟩

/-- A call, or `none` when it does not return. -/
def step (t : Tracked α) : Call → Option (Tracked α)
  | .update id stage => (t.scheduler.update id stage).map fun s => { t with scheduler := s }
  | .focus id => some { t with scheduler := (t.scheduler.focusMember id).1 }
  | .getNext => t.scheduler.getNext.map fun (s, pick) =>
    match pick with
    | none => { t with scheduler := s }
    | some _ => { scheduler := s, last := some (notePick s t.last) }
  | .peek => some t

/-! ## Where the cursor stands after a pick -/

/-- A member of the group other than the one at `m` is live. -/
def OtherLive (s : Scheduler α) (g : List ℕ) (m : ℕ) : Prop :=
  ∃ k < g.length, k ≠ m ∧ s.liveAt g k

/-- The quantum of the member at a position. -/
def quantumAt (s : Scheduler α) (g : List ℕ) (k : ℕ) : ℕ :=
  match g[k]? with
  | none => 0
  | some idx => ((s.entries[idx]?).map Entry.quantum).getD 0

/-- The member that is due after a pick in the same group: the same one while it is live and its
    quantum is not used up, otherwise the next live one in the circle. -/
def due (s : Scheduler α) (g : List ℕ) (p : Pick) : Option ℕ :=
  if s.liveAt g p.member ∧ p.count < quantumAt s g p.member then some p.member
  else firstFrom g.length (s.liveAt g) ((p.member + 1) % g.length)

/-- The cursor against the last pick. In the group of the pick it stands on the picked member, or the
    picked member had its turn and nothing live stands between it and the cursor. -/
structure Follows (s : Scheduler α) (p : Pick) : Prop where
  place : ∃ g, s.groups[p.group]? = some g ∧ p.member < g.length
  group : p.group ≤ s.group
  bound : ∀ g, s.groups[p.group]? = some g → OtherLive s g p.member →
    p.count ≤ quantumAt s g p.member
  fresh : s.group ≠ p.group → s.emitted = 0
  cursor : s.group = p.group → ∀ g, s.groups[s.group]? = some g →
    (s.member = p.member ∧ (OtherLive s g p.member → s.emitted = p.count)) ∨
    ((s.liveAt g p.member → quantumAt s g p.member ≤ p.count) ∧ s.emitted = 0 ∧
      firstFrom g.length (s.liveAt g) ((p.member + 1) % g.length)
        = firstFrom g.length (s.liveAt g) s.member)

theorem Table.quantumAt_pos (h : Table operatorId s) (hg : g ∈ s.groups) {k : ℕ}
    (hk : k < g.length) : 0 < quantumAt s g k := by
  obtain ⟨a, e, ha, he, -⟩ := h.entry hg hk
  simp only [quantumAt, ha, he, Option.map_some, Option.getD_some]
  exact h.quantum e (List.mem_of_getElem? he)

/-- The member under the cursor, by its position. -/
theorem servable_iff (h : Wf operatorId s) (hg : s.groups[s.group]? = some g) :
    Servable s ↔ s.liveAt g s.member ∧ s.emitted < quantumAt s g s.member := by
  obtain ⟨a, e, ha, he, hlive⟩ := h.entry (List.mem_of_getElem? hg) (h.member g hg)
  have hcursor := cursor_eq hg ha he
  have hquantum : quantumAt s g s.member = e.quantum := by simp [quantumAt, ha, he]
  rw [hlive, hquantum]
  constructor
  · rintro ⟨e', he', hdepleted, hlt⟩
    obtain rfl := Option.some.inj (hcursor.symm.trans he')
    exact ⟨by simp [hdepleted], hlt⟩
  · rintro ⟨hdepleted, hlt⟩
    exact ⟨e, hcursor, by simpa using hdepleted, hlt⟩

/-- Without another live member, whoever is live is the picked one. -/
theorem eq_of_not_otherLive {m k : ℕ} (hother : ¬OtherLive s g m) (hk : k < g.length)
    (hlive : s.liveAt g k) : k = m := by
  by_contra hne
  exact hother ⟨k, hk, hne, hlive⟩

/-- Depletion only shrinks what is live. -/
theorem OtherLive.of_reported {idx m : ℕ} {stage : ScanStage}
    (h : OtherLive (reported s idx stage) g m) : OtherLive s g m := by
  obtain ⟨k, hk, hne, hlive⟩ := h
  exact ⟨k, hk, hne, liveAt_reported hlive⟩

theorem quantumAt_reported (s : Scheduler α) (idx : ℕ) (stage : ScanStage) (g : List ℕ) (k : ℕ) :
    quantumAt (reported s idx stage) g k = quantumAt s g k := by
  unfold quantumAt
  cases g[k]? with
  | none => rfl
  | some i =>
    have hmap := congrArg (·[i]?) (map_reported (s := s) Entry.quantum idx stage fun _ _ => rfl)
    simp only [List.getElem?_map] at hmap
    show ((reported s idx stage).entries[i]?.map Entry.quantum).getD 0 = _
    rw [hmap]

/-- A report keeps the cursor against the last pick. -/
theorem Follows.reported (h : Wf operatorId s) (hp : Parked s) {p : Pick} (hf : Follows s p)
    (idx : ℕ) (stage : ScanStage) : Follows (reported s idx stage) p where
  place := hf.place
  group := hf.group
  bound := fun g hg hother => by
    rw [quantumAt_reported]
    exact hf.bound g hg hother.of_reported
  fresh := hf.fresh
  cursor := fun hgroup g hg => by
    rw [quantumAt_reported]
    have hpos : 0 < g.length := (h.member g hg).pos
    rcases hf.cursor hgroup g hg with ⟨hmember, hemitted⟩ | ⟨hused, hzero, hfirst⟩
    · exact .inl ⟨hmember, fun hother => hemitted hother.of_reported⟩
    · refine .inr ⟨fun hlive => hused (liveAt_reported hlive), hzero, ?_⟩
      have hlive := (not_depleted h hp hg).1
      rw [firstFrom_here (h.member g hg) hlive] at hfirst
      exact firstFrom_of_imp (Nat.mod_lt _ hpos) (fun i => liveAt_reported) hfirst

/-- `advance` keeps the cursor against the last pick. -/
theorem Follows.landing (h : Wf operatorId s) {p : Pick} (hf : Follows s p)
    (hland : Landing s s') : Follows s' p := by
  cases hland with
  | stay => exact hf
  | @rotate g j hg hspent hj =>
    obtain ⟨hjlt, hjlive⟩ := firstFrom_spec hj
    refine { hf with fresh := fun _ => rfl, cursor := fun hgroup g' hg' => ?_ }
    obtain rfl := Option.some.inj (hg.symm.trans hg')
    have hlt := h.member g hg
    have hhere : firstFrom g.length (s.liveAt g) j = some j := firstFrom_here hjlt hjlive
    show (j = p.member ∧ (OtherLive s g p.member → 0 = p.count)) ∨
      ((s.liveAt g p.member → quantumAt s g p.member ≤ p.count) ∧ 0 = 0 ∧
        firstFrom g.length (s.liveAt g) ((p.member + 1) % g.length)
          = firstFrom g.length (s.liveAt g) j)
    rw [servable_iff h hg] at hspent
    rcases hf.cursor hgroup g hg with ⟨hmember, hemitted⟩ | ⟨hused, hzero, hfirst⟩
    · by_cases hother : OtherLive s g p.member
      · -- the picked member had its turn
        rw [hmember] at hspent hj
        refine .inr ⟨fun hlive => ?_, rfl, hj.trans hhere.symm⟩
        rw [← hemitted hother]
        exact Nat.le_of_not_lt fun hlt' => hspent ⟨hlive, hlt'⟩
      · exact .inl ⟨eq_of_not_otherLive hother hjlt hjlive, fun h => absurd h hother⟩
    · -- the member that was due is depleted
      have hdead : ¬s.liveAt g s.member := by
        intro hlive
        rw [hzero] at hspent
        exact hspent ⟨hlive, h.quantumAt_pos (List.mem_of_getElem? hg) hlt⟩
      refine .inr ⟨hused, rfl, ?_⟩
      rw [hfirst, firstFrom_skip hlt hdead, hj, hhere]
  | @pass i g j hi =>
    refine { hf with group := hf.group.trans hi.le, fresh := fun _ => rfl, cursor := fun hgroup => ?_ }
    have hle := hf.group
    exact absurd hgroup (show ¬i = p.group by omega)
  | exhausted hs' hend =>
    rcases hs' with rfl | rfl
    · exact hf
    · obtain ⟨g, hg, -⟩ := hf.place
      have hlt := (List.getElem?_eq_some_iff.mp hg).1
      refine { hf with group := hlt.le, fresh := fun _ => rfl, cursor := fun hgroup => ?_ }
      exact absurd (hgroup : s.groups.length = p.group) (by omega)

/-- The state after a pick at the cursor. -/
def picked (s : Scheduler α) : Scheduler α := { s with emitted := s.emitted + 1 }

/-- A first pick of a member. -/
theorem Follows.first (h : Wf operatorId s) (hg : s.groups[s.group]? = some g)
    (hzero : s.emitted = 0) : Follows (picked s) ⟨s.group, s.member, 1⟩ where
  place := ⟨g, hg, h.member g hg⟩
  group := le_rfl
  bound := fun g' hg' _ => h.quantumAt_pos (List.mem_of_getElem? hg') (h.member g' hg')
  fresh := fun hne => absurd rfl hne
  cursor := fun _ _ _ => .inl ⟨rfl, fun _ => by rw [picked, hzero]⟩

/-- Another pick of the same member. -/
theorem Follows.again (h : Wf operatorId s) {p : Pick} (hf : Follows s p) (hserve : Servable s)
    (hg : s.groups[s.group]? = some g) (hgroup : s.group = p.group) (hmember : s.member = p.member) :
    Follows (picked s) { p with count := p.count + 1 } := by
  have hlt := h.member g hg
  obtain ⟨hlive, hquantum⟩ := (servable_iff h hg).mp hserve
  have hcount : OtherLive s g p.member → s.emitted = p.count := by
    rcases hf.cursor hgroup g hg with ⟨-, hemitted⟩ | ⟨-, -, hfirst⟩
    · exact hemitted
    · -- the search came back to the picked member: nobody else is live
      rintro ⟨k, hk, hne, hklive⟩
      rw [firstFrom_here hlt hlive, hmember] at hfirst
      exact absurd (firstFrom_back (hmember ▸ hlt) hfirst k hk hklive) hne
  refine { hf with bound := fun g' hg' hother => ?_, fresh := fun hne => absurd hgroup hne,
                   cursor := fun _ g' hg' => .inl ⟨hmember, ?_⟩ }
  · rw [← hgroup] at hg'
    obtain rfl := Option.some.inj (hg.symm.trans hg')
    show p.count + 1 ≤ quantumAt s g p.member
    rw [← hcount hother, ← hmember]
    exact hquantum
  · obtain rfl := Option.some.inj (hg.symm.trans hg')
    intro hother
    show s.emitted + 1 = p.count + 1
    rw [hcount hother]

/-- **The pick is the one that is due.** -/
theorem Follows.due (h : Wf operatorId s) {p : Pick} (hf : Follows s p) (hserve : Servable s)
    (hg : s.groups[s.group]? = some g) (hgroup : s.group = p.group) :
    due s g p = some s.member := by
  have hlt := h.member g hg
  obtain ⟨hlive, hquantum⟩ := (servable_iff h hg).mp hserve
  unfold PrefetchingScheduler.due
  rcases hf.cursor hgroup g hg with ⟨hmember, hemitted⟩ | ⟨hused, -, hfirst⟩
  · split_ifs with hserve'
    · rw [hmember]
    · have hother : ¬OtherLive s g p.member := by
        intro hother
        rw [hmember, hemitted hother] at hquantum
        exact hserve' ⟨hmember ▸ hlive, hquantum⟩
      rw [hmember]
      exact firstFrom_sole (hmember ▸ hlt) (hmember ▸ hlive)
        fun i hi hi' => eq_of_not_otherLive hother hi hi'
  · rw [if_neg fun hserve' => absurd (hused hserve'.1) (Nat.not_le_of_lt hserve'.2), hfirst,
      firstFrom_here hlt hlive]

/-! ## Runs -/

/-- What every call keeps: the scheduler is well formed and its cursor is on a live member. -/
structure Ready (operatorId : α → Option ℕ) (s : Scheduler α) : Prop where
  wf : Wf operatorId s
  parked : Parked s

theorem Landing.ready (h : Wf operatorId s) (hland : Landing s s') : Ready operatorId s' := by
  obtain ⟨hwf, hserve | hnone⟩ := hland.wf h
  · exact ⟨hwf, hserve.parked⟩
  · exact ⟨hwf, parked_of_none hnone⟩

/-- The cursor follows the last pick; before the first pick nothing of a quantum is used. -/
def InTurn (t : Tracked α) : Prop :=
  match t.last with
  | none => t.scheduler.emitted = 0
  | some p => Follows t.scheduler p

theorem emitted_landing (hzero : s.emitted = 0) (hland : Landing s s') : s'.emitted = 0 := by
  cases hland with
  | stay => exact hzero
  | rotate => rfl
  | pass => rfl
  | exhausted hs' =>
    rcases hs' with rfl | rfl
    · exact hzero
    · rfl

theorem InTurn.landing {last : Option Pick} (h : Wf operatorId s) (ht : InTurn ⟨s, last⟩)
    (hland : Landing s s') : InTurn ⟨s', last⟩ := by
  cases last with
  | none => exact emitted_landing (s := s) ht hland
  | some p => exact Follows.landing h ht hland

/-- `update` reports the stage for the entry of the operator and advances. -/
theorem update_returns (h : Ready operatorId s) (id : ℕ) (stage : ScanStage) :
    ∃ s', s.update id stage = some s' ∧ Ready operatorId s' ∧
      ∀ last, InTurn ⟨s, last⟩ → InTurn ⟨s', last⟩ := by
  unfold Scheduler.update
  cases s.byOperator.lookup id with
  | none => exact ⟨s, rfl, h, fun _ ht => ht⟩
  | some idx =>
    have hwf := h.wf.reported idx stage
    obtain ⟨s', hs', hland⟩ := advance_returns hwf
    refine ⟨s', hs', hland.ready hwf, fun last ht => InTurn.landing hwf ?_ hland⟩
    cases last with
    | none => exact ht
    | some p => exact Follows.reported h.wf h.parked ht idx stage

/-- A pick takes the place of the last one. -/
theorem InTurn.pick {last : Option Pick} (h : Wf operatorId s) (ht : InTurn ⟨s, last⟩)
    (hserve : Servable s) (hg : s.groups[s.group]? = some g) :
    Follows (picked s) (notePick (picked s) last) := by
  cases last with
  | none => exact Follows.first h hg ht
  | some p =>
    have hf : Follows s p := ht
    show Follows (picked s) (if p.group = s.group ∧ p.member = s.member then _ else _)
    split_ifs with hsame
    · exact hf.again h hserve hg hsame.1.symm hsame.2.symm
    · refine Follows.first h hg ?_
      by_cases hgroup : s.group = p.group
      · rcases hf.cursor hgroup g hg with ⟨hmember, -⟩ | ⟨-, hzero, -⟩
        · exact absurd ⟨hgroup.symm, hmember.symm⟩ hsame
        · exact hzero
      · exact hf.fresh hgroup

theorem Ready.picked (h : Ready operatorId s) : Ready operatorId (picked s) :=
  ⟨{ h.wf with }, h.parked⟩

/-- The group of a member that is served. -/
theorem Servable.group (h : Servable s) : ∃ g, s.groups[s.group]? = some g := by
  obtain ⟨e, he, -⟩ := h
  cases hg : s.groups[s.group]? with
  | none =>
    rw [cursor_none hg] at he
    cases he
  | some g => exact ⟨g, rfl⟩

/-- **Every call returns** and keeps the scheduler ready; without `focus_member` the cursor keeps
    following the picks. -/
theorem step_returns {t : Tracked α} (h : Ready operatorId t.scheduler) (c : Call) :
    ∃ t', step t c = some t' ∧ Ready operatorId t'.scheduler ∧
      ((∀ id, c ≠ .focus id) → InTurn t → InTurn t') := by
  cases c with
  | update id stage =>
    obtain ⟨s', hs', hready, hturn⟩ := update_returns h id stage
    refine ⟨{ t with scheduler := s' }, ?_, hready, fun _ => hturn t.last⟩
    simp [step, hs']
  | focus id =>
    obtain ⟨hwf, hparked⟩ := focusMember_wf h.wf h.parked id
    exact ⟨_, rfl, ⟨hwf, hparked⟩, fun hne => absurd rfl (hne id)⟩
  | getNext =>
    obtain ⟨s', hland, ⟨e, he, hlive, hquantum, hget⟩ | ⟨hnone, hget⟩⟩ := getNext_returns h.wf
    · have hready := hland.ready h.wf
      refine ⟨⟨picked s', some (notePick (picked s') t.last)⟩, ?_, hready.picked, fun _ ht => ?_⟩
      · simp [step, hget, picked]
      · have hserve : Servable s' := ⟨e, he, hlive, hquantum⟩
        obtain ⟨g, hg⟩ := hserve.group
        exact (InTurn.landing h.wf (s := t.scheduler) ht hland).pick hready.wf hserve hg
    · refine ⟨{ t with scheduler := s' }, ?_, hland.ready h.wf, fun _ ht => ?_⟩
      · simp [step, hget]
      · exact InTurn.landing h.wf (s := t.scheduler) ht hland
  | peek => exact ⟨t, rfl, h, fun _ ht => ht⟩

/-- The run lemma. -/
theorem run_returns {t : Tracked α} (h : Ready operatorId t.scheduler) (cs : List Call) :
    ∃ t', run step t cs = some t' ∧ Ready operatorId t'.scheduler ∧
      ((∀ id, Call.focus id ∉ cs) → InTurn t → InTurn t') := by
  induction cs generalizing t with
  | nil => exact ⟨t, rfl, h, fun _ ht => ht⟩
  | cons c cs ih =>
    obtain ⟨t', ht', hready, hturn⟩ := step_returns h c
    obtain ⟨t'', ht'', hready', hturn'⟩ := ih hready
    refine ⟨t'', ?_, hready', fun hne ht => hturn' (fun id hid => ?_) (hturn (fun id hid => ?_) ht)⟩
    · rw [run_cons, ht']
      exact ht''
    · exact hne id (List.mem_cons_of_mem c hid)
    · exact hne id (hid ▸ List.mem_cons_self)

/-- After `reset` the scheduler is ready and nothing of a quantum is used. -/
theorem reset_ready (operatorId : α → Option ℕ) (order : List (Step α)) :
    ∃ s, reset operatorId order = some s ∧ s.emitted = 0 ∧ Ready operatorId s := by
  obtain ⟨hwf, hzero⟩ := addSteps_wf operatorId order
  obtain ⟨s, hs, hland⟩ := advance_returns hwf
  exact ⟨s, hs, emitted_landing hzero hland, hland.ready hwf⟩

/-! ## The picks of a run -/

/-- The next pick is a live entry of the order, and whatever stands in an earlier group is
    depleted. -/
def PicksInOrder (operatorId : α → Option ℕ) (s : Scheduler α) : Prop :=
  ∀ s' e, s.getNext = some (s', some e) →
    e ∈ s.entries ∧ operatorId e.scan = some e.operatorId ∧ e.depleted = false ∧
    s'.cursor = some e ∧ ∀ i < s'.group, ∀ g, s.groups[i]? = some g → s.groupDepleted g

/-- The last pick kept to its quantum, and the next pick in its group is the member that is due. -/
def PicksInTurn (t : Tracked α) : Prop :=
  ∀ p, t.last = some p → ∃ g, t.scheduler.groups[p.group]? = some g ∧
    (OtherLive t.scheduler g p.member → p.count ≤ quantumAt t.scheduler g p.member) ∧
    ∀ s' e, t.scheduler.getNext = some (s', some e) → s'.group = p.group →
      due t.scheduler g p = some s'.member

theorem Ready.picksInOrder (h : Ready operatorId s) : PicksInOrder operatorId s := by
  intro s1 e hget
  obtain ⟨s', hland, ⟨e', he, hlive, -, hget'⟩ | ⟨-, hget'⟩⟩ := getNext_returns h.wf
  · obtain ⟨rfl, heq⟩ := Prod.mk.inj (Option.some.inj (hget.symm.trans hget'))
    obtain rfl := Option.some.inj heq
    obtain ⟨hentries, hgroups, -⟩ := hland.frame
    have hwf := (hland.wf h.wf).1
    have hmem : e ∈ s'.entries := by
      simp only [Scheduler.cursor, Option.bind_eq_bind, Option.bind_eq_some_iff] at he
      obtain ⟨g, -, idx, -, hidx⟩ := he
      exact List.mem_of_getElem? hidx
    refine ⟨hentries ▸ hmem, hwf.scans e hmem, hlive, he, fun i hi g hg => ?_⟩
    have hpast := hwf.past i hi g (hgroups ▸ hg)
    unfold Scheduler.groupDepleted Scheduler.live at hpast ⊢
    rwa [hentries] at hpast
  · obtain ⟨-, heq⟩ := Prod.mk.inj (Option.some.inj (hget.symm.trans hget'))
    cases heq

/-- `advance` changes neither what is live nor the quanta. -/
theorem Landing.due_eq (hland : Landing s s') (p : Pick) : due s' g p = due s g p := by
  have hentries := hland.frame.1
  unfold due quantumAt Scheduler.liveAt Scheduler.live
  rw [hentries]

theorem InTurn.picks {t : Tracked α} (h : Ready operatorId t.scheduler) (ht : InTurn t) :
    PicksInTurn t := by
  intro p hp
  have hf : Follows t.scheduler p := by
    unfold InTurn at ht
    rwa [hp] at ht
  obtain ⟨g, hg, -⟩ := hf.place
  refine ⟨g, hg, hf.bound g hg, fun s1 e hget hgroup => ?_⟩
  obtain ⟨s', hland, ⟨e', he, hlive, hquantum, hget'⟩ | ⟨-, hget'⟩⟩ := getNext_returns h.wf
  · obtain ⟨rfl, -⟩ := Prod.mk.inj (Option.some.inj (hget.symm.trans hget'))
    have hgroup' : s'.group = p.group := hgroup
    have hg' : s'.groups[s'.group]? = some g := by
      rw [hgroup', hland.frame.2.1]
      exact hg
    rw [← hland.due_eq p]
    exact (hf.landing h.wf hland).due (hland.wf h.wf).1 ⟨e', he, hlive, hquantum⟩ hg' hgroup'
  · obtain ⟨-, heq⟩ := Prod.mk.inj (Option.some.inj (hget.symm.trans hget'))
    cases heq

/-- **The prefetching scheduler over every run.** `reset` and every later call return. The picks keep
    to the order of the groups and, without `focus_member`, to the rotation. `peek_next_operator_id`
    and `focus_member` announce the next pick exactly when the quantum of the member under the cursor
    is not used up or nobody else is live. -/
theorem scheduler_contract (operatorId : α → Option ℕ) (order : List (Step α)) :
    ∃ s₀, reset operatorId order = some s₀ ∧
      ∀ cs : List Call, ∃ t, run step ⟨s₀, none⟩ cs = some t ∧
        PicksInOrder operatorId t.scheduler ∧
        ((∀ id, Call.focus id ∉ cs) → PicksInTurn t) ∧
        (t.scheduler.peekNext = none ↔ nextPick t.scheduler = none) ∧
        (t.scheduler.peekNext = (nextPick t.scheduler).map Entry.operatorId ↔
          QuantumLeft t.scheduler) ∧
        ∀ id, (t.scheduler.focusMember id).2 = true →
          ((nextPick (t.scheduler.focusMember id).1).map Entry.operatorId = some id ↔
            (t.scheduler.cursor.map Entry.operatorId = some id → QuantumLeft t.scheduler)) := by
  obtain ⟨s₀, hs₀, hzero, hready⟩ := reset_ready operatorId order
  refine ⟨s₀, hs₀, fun cs => ?_⟩
  obtain ⟨t, ht, hready', hturn⟩ := run_returns (t := ⟨s₀, none⟩) hready cs
  refine ⟨t, ht, hready'.picksInOrder, fun hne => (hturn hne hzero).picks hready', ?_, ?_, ?_⟩
  · exact peekNext_eq_none_iff hready'.wf hready'.parked
  · exact peekNext_eq_iff hready'.wf hready'.parked
  · exact fun id hfocus => focusMember_iff hready'.wf hready'.parked hfocus

/-- Two scans that are served in turn. -/
def twoScans : List (Step ℕ) := [⟨some 1, 0, .pipeline, 0⟩, ⟨some 2, 0, .pipeline, 0⟩]

/-- After the first pick the first scan has used up its quantum: `peek_next_operator_id` and
    `focus_member` still announce it, and the next pick is the second. -/
theorem twoScans_announces_the_first :
    ∃ s₀ t, reset some twoScans = some s₀ ∧ run step ⟨s₀, none⟩ [.getNext] = some t ∧
      t.scheduler.peekNext = some 1 ∧
      (t.scheduler.focusMember 1).2 = true ∧
      (nextPick t.scheduler).map Entry.operatorId = some 2 ∧
      (nextPick (t.scheduler.focusMember 1).1).map Entry.operatorId = some 2 :=
  ⟨_, _, rfl, rfl, by decide, by decide, by decide, by decide⟩

end Sirius.ScanManager.PrefetchingScheduler
