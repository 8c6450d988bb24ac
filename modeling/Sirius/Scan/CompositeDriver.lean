import Sirius.Common.Actors
import Sirius.Common.Run

/-!
# The driver of a composite scan

`op/scan/composite_scan_driver.cpp` scans its children one after the other. A claim of one of its
two outer lanes goes on with the lanes of the current child in the same domain, or, on the query
owner once the child is over, gives out a job that closes the child and discovers the next one.
Claims are serialized; jobs run, are discarded and retire between them in any order.

* `claim`, `close`, `discover`, `retire`: the driver, one call at a time.
* `Sound`: which children a discovery leaves behind.
* `Sound.step`: every call keeps it.
* `Sound.over_of_discover`: what has become of a child when the next one is asked for.
-/

namespace Sirius.Scan.CompositeDriver

open Sirius.Common

/-! ## Children and jobs -/

/-- `preparation_execution_domain`. -/
inductive Domain where
  | queryOwner
  | metadataWorker
  | nativeReader
  deriving DecidableEq

/-- A lane of a child, and how often its close hook ran. -/
structure Lane where
  domain : Domain
  exhausted : Bool := false
  closed : Bool := false
  closes : ℕ := 0
  deriving DecidableEq

/-- `unit_state`. -/
structure Child where
  lanes : List Lane
  jobs : ℕ := 0
  exhausted : Bool := false
  metadataClosed : Bool
  deriving DecidableEq

/-- How far a discovery is: it has yet to close the lanes of the child before, or to ask for the
    next child, or it is over. -/
inductive Stage where
  | closing
  | asking
  | over
  deriving DecidableEq

/-- A job that was given out. A discovery remembers the child that was current. -/
inductive Job where
  | lane (child lane : ℕ) (ran : Bool)
  | discovery (before : Option ℕ) (stage : Stage)
  | retired
  deriving DecidableEq

/-- What `try_claim` of a lane answers. -/
inductive Answer where
  | ready
  | pending
  | exhausted
  deriving DecidableEq

/-- The composite driver, and the jobs that are out. -/
structure Driver where
  children : List Child := []
  current : Option ℕ := none
  done : Bool := false
  ownerBusy : Bool := false
  jobs : List Job := []
  deriving DecidableEq

/-! ## The calls -/

/-- The loop over the lanes of a domain (lines 323-355): which lane answers with a job. -/
def claimLanes (domain : Domain) (answers : ℕ → Answer) : List Lane → ℕ → List Lane × Option ℕ
  | [], _ => ([], none)
  | lane :: rest, k =>
    if lane.domain ≠ domain ∨ lane.exhausted then
      let result := claimLanes domain answers rest (k + 1)
      (lane :: result.1, result.2)
    else
      match answers k with
      | .exhausted =>
        let result := claimLanes domain answers rest (k + 1)
        ({ lane with exhausted := true } :: result.1, result.2)
      | .pending =>
        let result := claimLanes domain answers rest (k + 1)
        (lane :: result.1, result.2)
      | .ready => (lane :: rest, some k)

/-- The lane of a domain is closed, unless it is already. -/
def Lane.close (domain : Domain) (lane : Lane) : Lane :=
  if lane.domain ≠ domain ∨ lane.closed then lane
  else { lane with closed := true, closes := lane.closes + 1 }

/-- `close_lanes` (lines 244-257). -/
def closeLanes (domain : Domain) (child : Child) : Child :=
  { child with lanes := child.lanes.map (Lane.close domain) }

/-- The child can be left behind (line 301). -/
def Child.finished (child : Child) : Bool :=
  child.exhausted && decide (child.jobs = 0) && child.metadataClosed

/-- All lanes may have come to an end (lines 356-359). -/
def Child.noteExhausted (child : Child) : Child :=
  if child.lanes.all (·.exhausted) then { child with exhausted := true } else child

/-- The metadata lanes are closed once nothing is left of them (lines 360-365). A close hook that
    throws does so after all of them ran. -/
def Child.closeMetadata (domain : Domain) (throws : Bool) (child : Child) : Child :=
  if domain = .metadataWorker ∧ child.exhausted ∧ child.jobs = 0 ∧ !child.metadataClosed then
    { closeLanes domain child with metadataClosed := !throws }
  else child

/-- The child after a claim on its lanes, and the lane that has a job. -/
def Child.claim (domain : Domain) (answers : ℕ → Answer) (throws : Bool) (child : Child) :
    Child × Option ℕ :=
  match claimLanes domain answers child.lanes 0 with
  | (lanes, some k) => ({ child with lanes := lanes, jobs := child.jobs + 1 }, some k)
  | (lanes, none) =>
    (Child.closeMetadata domain throws (Child.noteExhausted { child with lanes := lanes }), none)

/-- Whether the query owner goes on to the next child (lines 300-301). -/
def Driver.discovers (s : Driver) : Bool :=
  match s.current with
  | none => true
  | some u => s.children[u]?.any Child.finished

def Driver.setChild (s : Driver) (u : ℕ) (child : Child) : Driver :=
  { s with children := s.children.set u child }

/-- `claim` (lines 294-367), with its answer. -/
def claim (domain : Domain) (answers : ℕ → Answer) (throws : Bool) (s : Driver) :
    Driver × Answer :=
  if s.done then (s, .exhausted)
  else if domain = .queryOwner ∧ !s.ownerBusy ∧ s.discovers then
    ({ s with ownerBusy := true, jobs := s.jobs ++ [Job.discovery s.current .closing] }, .ready)
  else
    match s.current with
    | none => (s, .pending)
    | some u =>
      if s.ownerBusy then (s, .pending)
      else
        match s.children[u]? with
        | none => (s, .pending)
        | some child =>
          match child.claim domain answers throws with
          | (child, some k) =>
            ({ s.setChild u child with jobs := s.jobs ++ [Job.lane u k false] }, .ready)
          | (child, none) => (s.setChild u child, .pending)

/-- The close hook of an outer lane (lines 400-402). -/
def close (domain : Domain) (s : Driver) : Driver :=
  match s.current with
  | none => s
  | some u =>
    match s.children[u]? with
    | none => s
    | some child => s.setChild u (closeLanes domain child)

def Driver.setJob (s : Driver) (j : ℕ) (job : Job) : Driver := { s with jobs := s.jobs.set j job }

/-- A discovery closes the lanes of the child before (line 317), if it is not stopped before. -/
def closeBefore (j : ℕ) (stopped throws : Bool) (s : Driver) : Option Driver :=
  match s.jobs[j]? with
  | some (.discovery before .closing) =>
    if stopped then some (s.setJob j (.discovery before .over))
    else
      let s := s.setJob j (.discovery before (if throws then .over else .asking))
      match before with
      | none => some s
      | some u => (s.children[u]?).map fun child => s.setChild u (closeLanes .queryOwner child)
  | _ => none

/-- What `discover_next` and the preparation of the child come to. -/
inductive Discovery where
  | threw
  | noMore
  /-- The child failed before it had lanes. -/
  | unprepared
  | child (domains : List Domain)
  deriving DecidableEq

/-- `discover` (lines 258-293). The child is published before it is prepared. -/
def discover (j : ℕ) (result : Discovery) (s : Driver) : Option Driver :=
  match s.jobs[j]? with
  | some (.discovery before .asking) =>
    let s := s.setJob j (.discovery before .over)
    match result with
    | .threw => some s
    | .noMore => some { s with done := true, current := none }
    | .unprepared =>
      some { s with
        children := s.children ++ [{ lanes := [], metadataClosed := false }]
        current := some s.children.length }
    | .child domains =>
      some { s with
        children := s.children ++
          [{ lanes := domains.map fun d => { domain := d }
             metadataClosed := decide (Domain.metadataWorker ∉ domains) }]
        current := some s.children.length }
  | _ => none

/-- A job is destroyed, run or not (lines 303-311, 333-345). -/
def retire (j : ℕ) (s : Driver) : Option Driver :=
  match s.jobs[j]? with
  | some (.lane u _ _) =>
    (s.children[u]?).map fun child =>
      (s.setChild u { child with jobs := child.jobs - 1 }).setJob j .retired
  | some (.discovery _ _) => some { s.setJob j .retired with ownerBusy := false }
  | _ => none

/-- A call of the driver, or a step of a job. -/
inductive Act where
  | claim (domain : Domain) (answers : ℕ → Answer) (throws : Bool)
  | close (domain : Domain)
  | run (j : ℕ)
  | closeBefore (j : ℕ) (stopped throws : Bool)
  | discover (j : ℕ) (result : Discovery)
  | retire (j : ℕ)

/-- One critical section. -/
def step (s : Driver) : Act → Option Driver
  | .claim domain answers throws => some (claim domain answers throws s).1
  | .close domain => some (close domain s)
  | .run j =>
    match s.jobs[j]? with
    | some (.lane u k false) => some (s.setJob j (.lane u k true))
    | _ => none
  | .closeBefore j stopped throws => closeBefore j stopped throws s
  | .discover j result => discover j result s
  | .retire j => retire j s

/-! ## A child -/

variable {domain : Domain} {answers : ℕ → Answer} {throws : Bool} {child child' : Child}
  {lane : Lane} {s s' : Driver} {u j : ℕ}

/-- What the flags of a child say of its lanes. -/
structure Child.Sound (child : Child) : Prop where
  exhausted : child.exhausted → ∀ lane ∈ child.lanes, lane.exhausted
  closed : child.metadataClosed → ∀ lane ∈ child.lanes, lane.domain = .metadataWorker → lane.closed
  once : ∀ lane ∈ child.lanes, lane.closes = if lane.closed then 1 else 0

theorem claimLanes_of_exhausted {lanes : List Lane} (h : ∀ lane ∈ lanes, lane.exhausted) (k : ℕ) :
    claimLanes domain answers lanes k = (lanes, none) := by
  induction lanes generalizing k with
  | nil => rfl
  | cons lane rest ih =>
    have hlane : lane.domain ≠ domain ∨ lane.exhausted := .inr (h lane (List.mem_cons_self ..))
    rw [claimLanes, if_pos hlane, ih fun lane hmem => h lane (List.mem_cons_of_mem _ hmem)]

/-- A claim touches no more of a lane than whether it is exhausted. -/
theorem mem_claimLanes {lanes : List Lane} {k : ℕ}
    (h : lane ∈ (claimLanes domain answers lanes k).1) :
    ∃ old ∈ lanes, old.domain = lane.domain ∧ old.closed = lane.closed ∧
      old.closes = lane.closes := by
  induction lanes generalizing k with
  | nil => cases h
  | cons first rest ih =>
    -- the first lane of the result, and the lanes after it
    have hrest : lane ∈ (claimLanes domain answers rest (k + 1)).1 → ∃ old ∈ first :: rest,
        old.domain = lane.domain ∧ old.closed = lane.closed ∧ old.closes = lane.closes := by
      intro hmem
      obtain ⟨old, hold, heq⟩ := ih hmem
      exact ⟨old, List.mem_cons_of_mem _ hold, heq⟩
    unfold claimLanes at h
    split_ifs at h with hskip
    · rcases List.mem_cons.mp h with rfl | hmem
      · exact ⟨lane, List.mem_cons_self .., rfl, rfl, rfl⟩
      · exact hrest hmem
    · split at h
      · rcases List.mem_cons.mp h with rfl | hmem
        · exact ⟨first, List.mem_cons_self .., rfl, rfl, rfl⟩
        · exact hrest hmem
      · rcases List.mem_cons.mp h with rfl | hmem
        · exact ⟨lane, List.mem_cons_self .., rfl, rfl, rfl⟩
        · exact hrest hmem
      · exact ⟨lane, h, rfl, rfl, rfl⟩

theorem Lane.close_closed (h : lane.domain = domain) : (lane.close domain).closed := by
  unfold Lane.close
  by_cases hclosed : lane.closed
  · rwa [if_pos (.inr hclosed)]
  · rw [if_neg (by simp [h, hclosed])]

theorem Lane.close_kept (domain : Domain) (lane : Lane) :
    (lane.close domain).domain = lane.domain ∧ (lane.close domain).exhausted = lane.exhausted ∧
      (lane.closed → (lane.close domain).closed) := by
  unfold Lane.close
  split_ifs
  · exact ⟨rfl, rfl, id⟩
  · exact ⟨rfl, rfl, fun _ => rfl⟩

theorem Lane.close_once (h : lane.closes = if lane.closed then 1 else 0) :
    (lane.close domain).closes = if (lane.close domain).closed then 1 else 0 := by
  unfold Lane.close
  by_cases hskip : lane.domain ≠ domain ∨ lane.closed
  · rwa [if_pos hskip]
  · rw [if_neg hskip]
    rw [not_or] at hskip
    rw [if_neg hskip.2] at h
    simp [h]

theorem Child.Sound.closeLanes (h : child.Sound) : (closeLanes domain child).Sound where
  exhausted := by
    intro hexhausted lane hmem
    obtain ⟨old, hold, rfl⟩ := List.mem_map.mp hmem
    rw [(old.close_kept domain).2.1]
    exact h.exhausted hexhausted old hold
  closed := by
    intro hclosed lane hmem hdomain
    obtain ⟨old, hold, rfl⟩ := List.mem_map.mp hmem
    rw [(old.close_kept domain).1] at hdomain
    exact (old.close_kept domain).2.2 (h.closed hclosed old hold hdomain)
  once := by
    intro lane hmem
    obtain ⟨old, hold, rfl⟩ := List.mem_map.mp hmem
    exact Lane.close_once (h.once old hold)

theorem Child.Sound.closeMetadata (h : child.Sound) :
    (child.closeMetadata domain throws).Sound := by
  unfold Child.closeMetadata
  split_ifs with hclose
  · refine ⟨h.closeLanes.exhausted, fun _ lane hmem hdomain => ?_, h.closeLanes.once⟩
    obtain ⟨old, hold, rfl⟩ := List.mem_map.mp hmem
    rw [(old.close_kept domain).1] at hdomain
    exact Lane.close_closed (hdomain.trans hclose.1.symm)
  · exact h

theorem Child.Sound.noteExhausted (h : child.Sound) : child.noteExhausted.Sound := by
  unfold Child.noteExhausted
  split_ifs with hall
  · exact ⟨fun _ => List.all_eq_true.mp hall, h.closed, h.once⟩
  · exact h

/-- A claim on the lanes. -/
theorem Child.Sound.claimLanes (h : child.Sound) (k : ℕ) :
    { child with lanes := (claimLanes domain answers child.lanes k).1 }.Sound where
  exhausted := by
    intro hexhausted
    rw [claimLanes_of_exhausted (h.exhausted hexhausted)]
    exact h.exhausted hexhausted
  closed := by
    intro hclosed lane hmem hdomain
    obtain ⟨old, hold, holdDomain, holdClosed, -⟩ := mem_claimLanes hmem
    rw [← holdClosed]
    exact h.closed hclosed old hold (holdDomain.trans hdomain)
  once := by
    intro lane hmem
    obtain ⟨old, hold, -, holdClosed, holdCloses⟩ := mem_claimLanes hmem
    rw [← holdClosed, ← holdCloses]
    exact h.once old hold

theorem Child.Sound.claim (h : child.Sound) : (child.claim domain answers throws).1.Sound := by
  have hclaimed : Child.Sound
      { child with lanes := (CompositeDriver.claimLanes domain answers child.lanes 0).1 } :=
    h.claimLanes 0
  unfold Child.claim
  split
  · next lanes k heq =>
    rw [heq] at hclaimed
    exact ⟨hclaimed.exhausted, hclaimed.closed, hclaimed.once⟩
  · next lanes heq =>
    rw [heq] at hclaimed
    exact hclaimed.noteExhausted.closeMetadata

theorem Child.closeMetadata_jobs : (child.closeMetadata domain throws).jobs = child.jobs := by
  unfold Child.closeMetadata
  split_ifs <;> rfl

theorem Child.noteExhausted_jobs : child.noteExhausted.jobs = child.jobs := by
  unfold Child.noteExhausted
  split_ifs <;> rfl

/-- A claim counts the job that it gives out. -/
theorem Child.claim_jobs : (child.claim domain answers throws).1.jobs =
    child.jobs + if (child.claim domain answers throws).2.isSome then 1 else 0 := by
  unfold Child.claim
  split
  · rfl
  · exact Child.closeMetadata_jobs.trans Child.noteExhausted_jobs

theorem Child.finished_iff : child.finished ↔
    child.exhausted ∧ child.jobs = 0 ∧ child.metadataClosed := by
  simp [Child.finished, and_assoc]

/-- Nothing is claimed of a finished child. -/
theorem Child.Sound.claim_finished (h : child.Sound) (hfinished : child.finished) :
    child.claim domain answers throws = (child, none) := by
  obtain ⟨hexhausted, hjobs, hclosed⟩ := Child.finished_iff.mp hfinished
  have hall := h.exhausted hexhausted
  have hnote : child.noteExhausted = child := by
    unfold Child.noteExhausted
    rw [if_pos (List.all_eq_true.mpr hall), ← hexhausted]
  unfold Child.claim
  rw [claimLanes_of_exhausted hall]
  simp only [hnote, Child.closeMetadata]
  rw [if_neg (by simp [hclosed])]

/-! ## The driver -/

/-- A job on a lane of the child. -/
def Job.of (u : ℕ) : Job → ℕ
  | .lane v _ _ => if v = u then 1 else 0
  | _ => 0

def Job.discoveries : Job → ℕ
  | .discovery _ _ => 1
  | _ => 0

/-- **What holds between the calls.** Every child but the current one is finished, and while a
    discovery is on its way the current one is too. -/
structure Sound (s : Driver) : Prop where
  counted : ∀ u child, s.children[u]? = some child → child.jobs = total (Job.of u) s.jobs
  unknown : ∀ u, s.children.length ≤ u → total (Job.of u) s.jobs = 0
  flags : ∀ child ∈ s.children, child.Sound
  latest : ∀ u, s.current = some u → u + 1 = s.children.length
  past : ∀ u child, s.children[u]? = some child → s.current ≠ some u → child.finished
  busy : total Job.discoveries s.jobs = if s.ownerBusy then 1 else 0
  asked : ∀ before stage, Job.discovery before stage ∈ s.jobs → stage ≠ .over →
    before = s.current ∧ ∀ child ∈ s.children, child.finished

theorem sound_init : Sound {} where
  counted := fun _ _ h => nomatch h
  unknown := fun _ _ => rfl
  flags := fun _ h => nomatch h
  latest := fun _ h => nomatch h
  past := fun _ _ h => nomatch h
  busy := rfl
  asked := fun _ _ h => nomatch h

/-- A child changes, with as many jobs as before and no less finished. -/
theorem Sound.setChild (h : Sound s) (hu : s.children[u]? = some child) (hchild : child'.Sound)
    (hjobs : child'.jobs = child.jobs) (hfinished : child.finished → child'.finished) :
    Sound (s.setChild u child') where
  counted := by
    intro v c hv
    by_cases huv : u = v
    · subst huv
      rw [Driver.setChild, List.getElem?_set_self (List.getElem?_eq_some_iff.mp hu).1] at hv
      rw [← Option.some.inj hv, hjobs]
      exact h.counted u child hu
    · rw [Driver.setChild, List.getElem?_set_ne huv] at hv
      exact h.counted v c hv
  unknown := by
    intro v hv
    rw [Driver.setChild, List.length_set] at hv
    exact h.unknown v hv
  flags := by
    intro c hc
    rcases List.mem_or_eq_of_mem_set hc with hc | rfl
    · exact h.flags c hc
    · exact hchild
  latest := by
    intro v hv
    rw [Driver.setChild, List.length_set]
    exact h.latest v hv
  past := by
    intro v c hv hcurrent
    by_cases huv : u = v
    · subst huv
      rw [Driver.setChild, List.getElem?_set_self (List.getElem?_eq_some_iff.mp hu).1] at hv
      rw [← Option.some.inj hv]
      exact hfinished (h.past u child hu hcurrent)
    · rw [Driver.setChild, List.getElem?_set_ne huv] at hv
      exact h.past v c hv hcurrent
  busy := h.busy
  asked := by
    intro before stage hmem hstage
    obtain ⟨hbefore, hall⟩ := h.asked before stage hmem hstage
    refine ⟨hbefore, fun c hc => ?_⟩
    rcases List.mem_or_eq_of_mem_set hc with hc | rfl
    · exact hall c hc
    · exact hfinished (hall child (List.mem_of_getElem? hu))

/-- A job changes, for the same child or discovery. -/
theorem Sound.setJob {job job' : Job} (h : Sound s) (hj : s.jobs[j]? = some job)
    (hof : ∀ u, job'.of u = job.of u) (hdiscoveries : job'.discoveries = job.discoveries)
    (hasked : ∀ before stage, job' = .discovery before stage → stage ≠ .over →
      ∃ stage', job = .discovery before stage' ∧ stage' ≠ .over) : Sound (s.setJob j job') where
  counted := by
    intro u child hu
    have htotal := total_set (w := Job.of u) hj job'
    rw [hof] at htotal
    exact (h.counted u child hu).trans (Nat.add_right_cancel htotal).symm
  unknown := by
    intro u hu
    have htotal := total_set (w := Job.of u) hj job'
    rw [hof] at htotal
    exact (Nat.add_right_cancel htotal).trans (h.unknown u hu)
  flags := h.flags
  latest := h.latest
  past := h.past
  busy := by
    have htotal := total_set (w := Job.discoveries) hj job'
    rw [hdiscoveries] at htotal
    exact (Nat.add_right_cancel htotal).trans h.busy
  asked := by
    intro before stage hmem hstage
    rcases List.mem_or_eq_of_mem_set hmem with hmem | heq
    · exact h.asked before stage hmem hstage
    · obtain ⟨stage', rfl, hstage'⟩ := hasked before stage heq.symm hstage
      exact h.asked before stage' (List.mem_of_getElem? hj) hstage'

/-- Without a discovery nobody asks. -/
theorem Sound.not_asked (h : Sound s) (hbusy : s.ownerBusy = false) {before : Option ℕ}
    {stage : Stage} : Job.discovery before stage ∉ s.jobs := by
  intro hmem
  have hle := weight_le_total (w := Job.discoveries) hmem
  rw [h.busy, hbusy] at hle
  cases hle

theorem Driver.discovers_iff (h : Sound s) :
    s.discovers ↔ ∀ child ∈ s.children, child.finished := by
  unfold Driver.discovers
  split
  · next hcurrent =>
    refine ⟨fun _ child hmem => ?_, fun _ => rfl⟩
    obtain ⟨u, hu⟩ := List.mem_iff_getElem?.mp hmem
    exact h.past u child hu (by rw [hcurrent]; exact Option.some_ne_none u |>.symm)
  · next u hcurrent =>
    have hlt : u < s.children.length := by
      have := h.latest u hcurrent
      omega
    have hu : s.children[u]? = some s.children[u] := List.getElem?_eq_getElem hlt
    rw [hu, Option.any_some]
    refine ⟨fun hfinished child hmem => ?_, fun hall => hall _ (List.mem_of_getElem? hu)⟩
    obtain ⟨v, hv⟩ := List.mem_iff_getElem?.mp hmem
    by_cases huv : u = v
    · subst huv
      rwa [← Option.some.inj (hu.symm.trans hv)]
    · exact h.past v child hv (by rw [hcurrent]; exact fun heq => huv (Option.some.inj heq))

/-- The query owner goes on to the next child. -/
theorem Sound.startDiscovery (h : Sound s) (hbusy : s.ownerBusy = false)
    (hdiscovers : s.discovers) :
    Sound { s with ownerBusy := true, jobs := s.jobs ++ [Job.discovery s.current .closing] } where
  counted := by
    intro u child hu
    rw [total_append, total_cons, total_nil]
    exact h.counted u child hu
  unknown := by
    intro u hu
    rw [total_append, total_cons, total_nil]
    exact h.unknown u hu
  flags := h.flags
  latest := h.latest
  past := h.past
  busy := by
    rw [total_append, h.busy, hbusy]
    rfl
  asked := by
    intro before stage hmem hstage
    rcases List.mem_append.mp hmem with hmem | hmem
    · exact absurd hmem (h.not_asked hbusy)
    · obtain ⟨rfl, rfl⟩ := Job.discovery.inj (List.mem_singleton.mp hmem)
      exact ⟨rfl, (Driver.discovers_iff h).mp hdiscovers⟩

/-- A lane of the current child gives out a job. -/
theorem Sound.startJob (h : Sound s) (hbusy : s.ownerBusy = false) (hcurrent : s.current = some u)
    (hu : s.children[u]? = some child) (hchild : child'.Sound)
    (hjobs : child'.jobs = child.jobs + 1) (k : ℕ) :
    Sound { s.setChild u child' with jobs := s.jobs ++ [Job.lane u k false] } where
  counted := by
    intro v c hv
    show c.jobs = total (Job.of v) (s.jobs ++ [Job.lane u k false])
    rw [total_append, total_cons, total_nil]
    by_cases huv : u = v
    · subst huv
      rw [Driver.setChild, List.getElem?_set_self (List.getElem?_eq_some_iff.mp hu).1] at hv
      rw [← Option.some.inj hv, hjobs, h.counted u child hu]
      simp [Job.of]
    · rw [Driver.setChild, List.getElem?_set_ne huv] at hv
      rw [h.counted v c hv]
      simp [Job.of, huv]
  unknown := by
    intro v hv
    rw [Driver.setChild, List.length_set] at hv
    have hne : u ≠ v := by
      have := h.latest u hcurrent
      omega
    show total (Job.of v) (s.jobs ++ [Job.lane u k false]) = 0
    rw [total_append, h.unknown v hv]
    simp [Job.of, hne]
  flags := by
    intro c hc
    rcases List.mem_or_eq_of_mem_set hc with hc | rfl
    · exact h.flags c hc
    · exact hchild
  latest := by
    intro v hv
    rw [Driver.setChild, List.length_set]
    exact h.latest v hv
  past := by
    intro v c hv hne
    have huv : u ≠ v := by
      rintro rfl
      exact hne hcurrent
    rw [Driver.setChild, List.getElem?_set_ne huv] at hv
    exact h.past v c hv hne
  busy := by
    show total Job.discoveries (s.jobs ++ [Job.lane u k false]) = _
    rw [total_append]
    exact h.busy
  asked := by
    intro before stage hmem _
    rcases List.mem_append.mp hmem with hmem | hmem
    · exact absurd hmem (h.not_asked hbusy)
    · cases List.mem_singleton.mp hmem

theorem Sound.claim (h : Sound s) : Sound (claim domain answers throws s).1 := by
  unfold CompositeDriver.claim
  split_ifs with hdone howner hbusy
  · exact h
  · rw [Bool.not_eq_true'] at howner
    exact h.startDiscovery howner.2.1 howner.2.2
  · split <;> exact h
  · split
    · exact h
    · next u hcurrent =>
      split
      · exact h
      · next child hu =>
        have hchild := h.flags child (List.mem_of_getElem? hu)
        have hsound : (child.claim domain answers throws).1.Sound := hchild.claim
        have hjobs : (child.claim domain answers throws).1.jobs = child.jobs +
            if (child.claim domain answers throws).2.isSome then 1 else 0 := Child.claim_jobs
        split
        · next child' k heq =>
          rw [heq] at hsound hjobs
          exact h.startJob (Bool.eq_false_iff.mpr hbusy) hcurrent hu hsound hjobs k
        · next child' heq =>
          rw [heq] at hsound hjobs
          refine h.setChild hu hsound hjobs fun hfinished => ?_
          rw [hchild.claim_finished hfinished] at heq
          rwa [← (Prod.mk.inj heq).1]

theorem Sound.close (h : Sound s) : Sound (close domain s) := by
  unfold CompositeDriver.close
  split
  · exact h
  · split
    · exact h
    · next child hu =>
      exact h.setChild hu (h.flags child (List.mem_of_getElem? hu)).closeLanes rfl id

theorem Sound.closeBefore {stopped : Bool} (h : Sound s)
    (hstep : closeBefore j stopped throws s = some s') : Sound s' := by
  unfold CompositeDriver.closeBefore at hstep
  split at hstep
  · next before hj =>
    have hset : ∀ stage, Sound (s.setJob j (.discovery before stage)) := by
      intro stage
      refine h.setJob hj (fun _ => rfl) rfl fun before' stage' heq _ => ?_
      rw [(Job.discovery.inj heq).1]
      exact ⟨.closing, rfl, fun h => nomatch h⟩
    by_cases hstopped : stopped = true
    · rw [if_pos hstopped] at hstep
      obtain rfl := Option.some.inj hstep
      exact hset .over
    · rw [if_neg hstopped] at hstep
      cases before with
      | none =>
        obtain rfl := Option.some.inj hstep
        exact hset _
      | some u =>
        obtain ⟨child, hu, rfl⟩ := Option.map_eq_some_iff.mp hstep
        have hchild := h.flags child (List.mem_of_getElem? hu)
        exact (hset _).setChild hu hchild.closeLanes rfl id
  · cases hstep

theorem Sound.run (h : Sound s) (hstep : step s (.run j) = some s') : Sound s' := by
  simp only [step] at hstep
  split at hstep
  · next u k hj =>
    obtain rfl := Option.some.inj hstep
    exact h.setJob hj (fun _ => rfl) rfl fun _ _ heq => nomatch heq
  · cases hstep

/-- A child with a job on one of its lanes is not finished. -/
theorem Sound.not_finished {k : ℕ} {ran : Bool} (h : Sound s)
    (hj : s.jobs[j]? = some (.lane u k ran)) (hu : s.children[u]? = some child) :
    ¬child.finished := by
  intro hfinished
  have hle := weight_le_total (w := Job.of u) (List.mem_of_getElem? hj)
  rw [← h.counted u child hu, (Child.finished_iff.mp hfinished).2.1] at hle
  simp [Job.of] at hle

/-- A job on a lane retires. -/
theorem Sound.retireLane {k : ℕ} {ran : Bool} (h : Sound s)
    (hj : s.jobs[j]? = some (.lane u k ran)) (hu : s.children[u]? = some child) :
    Sound ((s.setChild u { child with jobs := child.jobs - 1 }).setJob j .retired) where
  counted := by
    intro v c hv
    show c.jobs = total (Job.of v) (s.jobs.set j .retired)
    have htotal := total_set (w := Job.of v) hj .retired
    by_cases huv : u = v
    · subst huv
      have hcount := h.counted u child hu
      rw [Driver.setJob, Driver.setChild,
        List.getElem?_set_self (List.getElem?_eq_some_iff.mp hu).1] at hv
      rw [← Option.some.inj hv]
      simp only [Job.of, ↓reduceIte] at htotal
      show child.jobs - 1 = _
      omega
    · rw [Driver.setJob, Driver.setChild, List.getElem?_set_ne huv] at hv
      rw [h.counted v c hv]
      simp only [Job.of, huv, ↓reduceIte] at htotal
      omega
  unknown := by
    intro v hv
    rw [Driver.setJob, Driver.setChild, List.length_set] at hv
    have htotal := total_set (w := Job.of v) hj .retired
    have hzero := h.unknown v hv
    show total (Job.of v) (s.jobs.set j .retired) = 0
    simp only [Job.of] at htotal
    omega
  flags := by
    intro c hc
    have hchild := h.flags child (List.mem_of_getElem? hu)
    rcases List.mem_or_eq_of_mem_set hc with hc | rfl
    · exact h.flags c hc
    · exact ⟨hchild.exhausted, hchild.closed, hchild.once⟩
  latest := by
    intro v hv
    rw [Driver.setJob, Driver.setChild, List.length_set]
    exact h.latest v hv
  past := by
    intro v c hv hcurrent
    have huv : u ≠ v := by
      rintro rfl
      exact h.not_finished hj hu (h.past u child hu hcurrent)
    rw [Driver.setJob, Driver.setChild, List.getElem?_set_ne huv] at hv
    exact h.past v c hv hcurrent
  busy := by
    have htotal := total_set (w := Job.discoveries) hj .retired
    exact (Nat.add_right_cancel htotal).trans h.busy
  asked := by
    intro before stage hmem hstage
    rcases List.mem_or_eq_of_mem_set hmem with hmem | heq
    · have hall := (h.asked before stage hmem hstage).2
      exact absurd (hall child (List.mem_of_getElem? hu)) (h.not_finished hj hu)
    · cases heq

/-- A discovery retires. -/
theorem Sound.retireDiscovery {before : Option ℕ} {stage : Stage} (h : Sound s)
    (hj : s.jobs[j]? = some (.discovery before stage)) :
    Sound { s.setJob j .retired with ownerBusy := false } where
  counted := by
    intro u child hu
    have htotal := total_set (w := Job.of u) hj .retired
    exact (h.counted u child hu).trans (Nat.add_right_cancel htotal).symm
  unknown := by
    intro u hu
    have htotal := total_set (w := Job.of u) hj .retired
    exact (Nat.add_right_cancel htotal).trans (h.unknown u hu)
  flags := h.flags
  latest := h.latest
  past := h.past
  busy := by
    have htotal := total_set (w := Job.discoveries) hj .retired
    have hbusy := h.busy
    show total Job.discoveries (s.jobs.set j .retired) = 0
    simp only [Job.discoveries] at htotal
    split_ifs at hbusy <;> omega
  asked := by
    intro before' stage' hmem hstage
    rcases List.mem_or_eq_of_mem_set hmem with hmem | heq
    · exact h.asked before' stage' hmem hstage
    · cases heq

theorem Sound.retire (h : Sound s) (hstep : retire j s = some s') : Sound s' := by
  unfold CompositeDriver.retire at hstep
  split at hstep
  · next u k ran hj =>
    obtain ⟨child, hu, rfl⟩ := Option.map_eq_some_iff.mp hstep
    exact h.retireLane hj hu
  · next before stage hj =>
    obtain rfl := Option.some.inj hstep
    exact h.retireDiscovery hj
  · cases hstep

/-- The child that a discovery comes to, before any claim on it. -/
def Child.Fresh (child : Child) : Prop := child.Sound ∧ child.jobs = 0

theorem fresh_unprepared : Child.Fresh { lanes := [], metadataClosed := false } := by
  refine ⟨⟨?_, ?_, ?_⟩, rfl⟩
  · exact fun _ _ h => nomatch h
  · exact fun _ _ h => nomatch h
  · exact fun _ h => nomatch h

theorem fresh_child (domains : List Domain) :
    Child.Fresh
      { lanes := domains.map fun d => { domain := d }
        metadataClosed := decide (Domain.metadataWorker ∉ domains) } := by
  refine ⟨⟨?_, ?_, ?_⟩, rfl⟩
  · exact fun h => nomatch h
  · intro hclosed lane hmem hdomain
    obtain ⟨d, hd, rfl⟩ := List.mem_map.mp hmem
    obtain rfl : d = .metadataWorker := hdomain
    exact absurd hd (of_decide_eq_true hclosed)
  · intro lane hmem
    obtain ⟨d, -, rfl⟩ := List.mem_map.mp hmem
    rfl

theorem getElem?_published {children : List Child} (h : (children ++ [child'])[u]? = some child) :
    children[u]? = some child ∨ (u = children.length ∧ child' = child) := by
  by_cases hlt : u < children.length
  · rw [List.getElem?_append_left hlt] at h
    exact .inl h
  · obtain ⟨hle, -⟩ := List.getElem?_eq_some_iff.mp h
    rw [List.length_append, List.length_singleton] at hle
    obtain rfl : u = children.length := by omega
    rw [List.getElem?_append_right le_rfl, Nat.sub_self] at h
    exact .inr ⟨rfl, Option.some.inj h⟩

/-- The next child is published, all the others being finished. -/
theorem Sound.publish (h : Sound s) (hall : ∀ child ∈ s.children, child.finished)
    (hover : ∀ before stage, Job.discovery before stage ∈ s.jobs → stage = .over)
    (hfresh : child.Fresh) :
    Sound { s with children := s.children ++ [child], current := some s.children.length } where
  counted := by
    intro u c hu
    rcases getElem?_published hu with hu | ⟨rfl, rfl⟩
    · exact h.counted u c hu
    · rw [hfresh.2]
      exact (h.unknown _ le_rfl).symm
  unknown := by
    intro u hu
    rw [List.length_append] at hu
    exact h.unknown u (by omega)
  flags := by
    intro c hc
    rcases List.mem_append.mp hc with hc | hc
    · exact h.flags c hc
    · rw [List.mem_singleton.mp hc]
      exact hfresh.1
  latest := by
    intro u hu
    rw [← Option.some.inj hu, List.length_append]
    rfl
  past := by
    intro u c hu hcurrent
    rcases getElem?_published hu with hu | ⟨rfl, rfl⟩
    · exact hall c (List.mem_of_getElem? hu)
    · exact absurd rfl hcurrent
  busy := h.busy
  asked := fun before stage hmem hstage => absurd (hover before stage hmem) hstage

/-- A discovery that is over is the only one. -/
theorem Sound.only_over {before : Option ℕ} {stage : Stage} (h : Sound s)
    (hj : s.jobs[j]? = some (.discovery before stage)) :
    ∀ before' stage', Job.discovery before' stage' ∈ (s.setJob j (.discovery before .over)).jobs →
      stage' = .over := by
  intro before' stage' hmem
  obtain ⟨i, hi⟩ := List.mem_iff_getElem?.mp hmem
  by_cases hij : j = i
  · subst hij
    rw [Driver.setJob, List.getElem?_set_self (List.getElem?_eq_some_iff.mp hj).1] at hi
    exact (Job.discovery.inj (Option.some.inj hi)).2.symm
  · -- another one would make two
    rw [Driver.setJob, List.getElem?_set_ne hij] at hi
    have htotal := total_set (w := Job.discoveries) hj .retired
    have hother : (s.jobs.set j .retired)[i]? = some (.discovery before' stage') := by
      rw [List.getElem?_set_ne hij, hi]
    have hle := weight_le_total (w := Job.discoveries) (List.mem_of_getElem? hother)
    have hbusy := h.busy
    simp only [Job.discoveries] at htotal hle
    split_ifs at hbusy <;> omega

theorem Sound.discover {result : Discovery} (h : Sound s) (hstep : discover j result s = some s') :
    Sound s' := by
  unfold CompositeDriver.discover at hstep
  split at hstep
  · next before hj =>
    have hall := (h.asked before .asking (List.mem_of_getElem? hj) fun h => nomatch h).2
    have hset : Sound (s.setJob j (.discovery before .over)) :=
      h.setJob hj (fun _ => rfl) rfl fun before' stage' heq hstage =>
        absurd (Job.discovery.inj heq).2.symm hstage
    have hover := h.only_over hj
    cases result with
    | threw =>
      obtain rfl := Option.some.inj hstep
      exact hset
    | noMore =>
      obtain rfl := Option.some.inj hstep
      refine ⟨hset.counted, hset.unknown, hset.flags, ?_, ?_, hset.busy, ?_⟩
      · exact fun _ h => nomatch h
      · exact fun u child hu _ => hall child (List.mem_of_getElem? hu)
      · exact fun before' stage' hmem hstage => absurd (hover before' stage' hmem) hstage
    | unprepared =>
      obtain rfl := Option.some.inj hstep
      exact hset.publish hall hover fresh_unprepared
    | child domains =>
      obtain rfl := Option.some.inj hstep
      exact hset.publish hall hover (fresh_child domains)
  · cases hstep

theorem Sound.step {act : Act} (h : Sound s) (hstep : step s act = some s') : Sound s' := by
  cases act with
  | claim domain answers throws =>
    obtain rfl := Option.some.inj hstep
    exact h.claim
  | close domain =>
    obtain rfl := Option.some.inj hstep
    exact h.close
  | run j => exact h.run hstep
  | closeBefore j stopped throws => exact h.closeBefore hstep
  | discover j result => exact h.discover hstep
  | retire j => exact h.retire hstep

/-- The child is over: its lanes are exhausted, no job on them is left, and those of the metadata
    workers are closed. -/
structure Over (s : Driver) (u : ℕ) (child : Child) : Prop where
  exhausted : ∀ lane ∈ child.lanes, lane.exhausted
  jobs : ∀ k ran, Job.lane u k ran ∉ s.jobs
  closed : ∀ lane ∈ child.lanes, lane.domain = .metadataWorker → lane.closed

theorem Sound.over (h : Sound s) (hu : s.children[u]? = some child) (hfinished : child.finished) :
    Over s u child := by
  obtain ⟨hexhausted, hjobs, hclosed⟩ := Child.finished_iff.mp hfinished
  have hchild := h.flags child (List.mem_of_getElem? hu)
  refine ⟨hchild.exhausted hexhausted, fun k ran hmem => ?_, hchild.closed hclosed⟩
  obtain ⟨j, hj⟩ := List.mem_iff_getElem?.mp hmem
  exact h.not_finished hj hu hfinished

/-- **The next child is asked for only once every child before it is over.** -/
theorem Sound.over_of_discover {result : Discovery} (h : Sound s)
    (hstep : CompositeDriver.step s (.discover j result) = some s')
    (hu : s.children[u]? = some child) : Over s u child := by
  simp only [CompositeDriver.step, CompositeDriver.discover] at hstep
  split at hstep
  · next before hj =>
    have hall := (h.asked before .asking (List.mem_of_getElem? hj) fun h => nomatch h).2
    exact h.over hu (hall child (List.mem_of_getElem? hu))
  · cases hstep

end Sirius.Scan.CompositeDriver
