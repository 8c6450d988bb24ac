import Sirius.Common.Run
import Sirius.Common.Interleaving

/-!
# Runtime-wide read admission

Model of `shared_scan_budget` (`src/scan_manager/shared_scan_budget.hpp`). A request reserves
several backends at once. A demand request never waits; a speculative one waits until it is
the oldest waiting query and every backend it names has room.

The state is what the mutex protects, and a step is one critical section: a call of `acquire`
up to its return or its first wait, one evaluation of the wait condition, the destruction of
a ticket. When the stop token is read, and which allocation fails, are part of the action.
`std::size_t` counts are `ℕ`, and a `query_id_t` is its number.

* `step`: one critical section, with what it answers and whether it notifies.
* `Ledger`: the usage table counts the tickets and the waiting calls.
* `inv_step`: every step keeps the invariant.
* `budget_accounts_orders_and_wakes`: what holds in every run.
-/

namespace Sirius.ScanManager.SharedScanBudget

open Sirius.Common

structure Request where
  backend : ℕ
  limit : ℕ
  deriving DecidableEq, Repr

structure Usage where
  active : ℕ := 0
  limit : ℕ
  waiters : ℕ := 0
  deriving DecidableEq, Repr

/-- The backends of the shared state, by their address. -/
abbrev Backends := ℕ → Option Usage

/-- A call that waits: `query` is its element of the waiting list, `requests` its registered
    requests, and `call` tells the calls in progress apart. -/
structure Waiter where
  call : ℕ
  query : ℕ
  requests : List Request
  deriving DecidableEq, Repr

/-- The shared state, with the requests of the live tickets. -/
structure State where
  backends : Backends := fun _ => none
  waiting : List Waiter := []
  tickets : List (List Request) := []

inductive Error where
  | nonPositiveLimit
  | conflictingLimits
  | limitChanged
  | badAlloc
  deriving DecidableEq, Repr

/-! ## The request list -/

/-- The validation loop (lines 92–98); `prev` is the request before the first of the list. -/
def checkLimits : Option Request → List Request → Except Error Unit
  | _, [] => .ok ()
  | prev, r :: rest =>
    if r.limit = 0 then .error .nonPositiveLimit
    else if prev.any fun p => p.backend = r.backend ∧ p.limit ≠ r.limit then
      .error .conflictingLimits
    else checkLimits (some r) rest

/-- Sort, validate, and drop the repeated backends (lines 89–102). -/
def normalise (requests : List Request) : Except Error (List Request) :=
  let sorted := requests.insertionSort fun a b => a.backend ≤ b.backend
  match checkLimits none sorted with
  | .error e => .error e
  | .ok () => .ok (sorted.destutter fun a b => a.backend ≠ b.backend)

/-! ## The usage table -/

/-- One round of the registration loop (lines 134–138). -/
def registerOne (r : Request) (u : Option Usage) : Option Usage :=
  let u := u.getD { limit := r.limit }
  some { u with waiters := u.waiters + 1 }

def register (requests : List Request) : Backends → Backends :=
  exec Request.backend registerOne requests

/-- One round of the loop of the guard's destructor (lines 122–125). -/
def unregisterOne (u : Option Usage) : Option Usage :=
  u.bind fun u =>
    let u := { u with waiters := u.waiters - 1 }
    if u.waiters = 0 ∧ u.active = 0 then none else some u

def unregister (requests : List Request) : Backends → Backends :=
  exec Request.backend (fun _ => unregisterOne) requests

/-- One round of the loop that charges a granted request (lines 157–158). -/
def chargeOne (u : Option Usage) : Option Usage :=
  u.map fun u => { u with active := u.active + 1 }

def charge (requests : List Request) : Backends → Backends :=
  exec Request.backend (fun _ => chargeOne) requests

/-- What one round of the loop of `~ticket` leaves of an entry (lines 69 and 71). -/
def releaseOne (u : Option Usage) : Option Usage :=
  u.bind fun u =>
    let u := { u with active := u.active - 1 }
    if u.active = 0 ∧ u.waiters = 0 then none else some u

/-- The loop of `~ticket` (lines 66–72): the table, and the flag `wake`. -/
def release (requests : List Request) (m : Backends) : Backends × Bool :=
  requests.foldl (fun (m, wake) r =>
    (Function.update m r.backend (releaseOne (m r.backend)),
      wake || (m r.backend).any fun u => u.active - 1 < u.limit)) (m, false)

/-- The active count of an entry. -/
def activeOf (u : Option Usage) : ℕ := u.elim 0 Usage.active

/-- The registered waiters of an entry. -/
def waitersOf (u : Option Usage) : ℕ := u.elim 0 Usage.waiters

/-- `active`: the active count of a backend. -/
def State.active (s : State) (b : ℕ) : ℕ := activeOf (s.backends b)

/-- The registered waiters of a backend. -/
def State.waiters (s : State) (b : ℕ) : ℕ := waitersOf (s.backends b)

/-- `available`: the condition of a wait (lines 139–147). -/
def available (s : State) (query : ℕ) (requests : List Request) : Bool :=
  (s.waiting.all fun other => ¬other.query < query) &&
    requests.all fun r => (s.backends r.backend).any fun u => u.active < u.limit

/-- The condition of a waiting call. -/
def Waiter.ready (s : State) (w : Waiter) : Bool := available s w.query w.requests

/-! ## The critical sections -/

/-- An allocation that fails in `acquire`: of the ticket, of the entry of the `j`-th request,
    or of the waiting list's node. -/
inductive Fault where
  | ticket
  | emplace (j : ℕ)
  | insert
  deriving DecidableEq, Repr

/-- The arguments of `acquire`, the two reads of the stop token before a wait, and a failing
    allocation. -/
structure Call where
  call : ℕ
  requests : List Request
  query : ℕ
  demand : Bool
  stopped : Bool := false
  stoppedLate : Bool := false
  fault : Option Fault := none

inductive Reply where
  | throws (error : Error)
  | cancelled
  | granted (requests : List Request)
  | waits
  | released
  deriving DecidableEq, Repr

/-- What a step answers, and whether it calls `notify_all`. -/
structure Effect where
  reply : Reply
  notified : Bool := false
  deriving DecidableEq, Repr

/-- The request whose registration throws, of `n` requests. -/
def Call.failsAt (c : Call) (n : ℕ) : Option ℕ :=
  match c.fault with
  | some (.emplace j) => if j < n then some j else none
  | _ => none

/-- Charge a registered request, hand out its ticket, and unregister it. -/
def grant (s : State) (requests : List Request) : State :=
  { s with
    backends := unregister requests (charge requests s.backends)
    tickets := s.tickets ++ [requests] }

/-- Register the first `n` requests and unregister them again: the guard, on a way out that
    grants nothing. -/
def undo (s : State) (requests : List Request) (n : ℕ) : State :=
  { s with
    backends := unregister (requests.take n) (register (requests.take n) s.backends) }

/-- The section of `acquire` under the mutex (lines 106–160), up to the wait. -/
def admitCall (s : State) (c : Call) (requests : List Request) : State × Effect :=
  if requests.any fun r => (s.backends r.backend).any fun u => u.limit ≠ r.limit then
    (s, { reply := .throws .limitChanged })
  else match c.failsAt requests.length with
    | some j => (undo s requests j, { reply := .throws .badAlloc })
    | none =>
      let registered := { s with backends := register requests s.backends }
      if c.demand then (grant registered requests, { reply := .granted requests })
      else if available registered c.query requests then
        if c.stoppedLate then (undo s requests requests.length, { reply := .cancelled })
        else (grant registered requests, { reply := .granted requests })
      else if c.fault = some .insert then
        (undo s requests requests.length, { reply := .throws .badAlloc })
      else
        ({ registered with
            waiting := s.waiting ++ [{ call := c.call, query := c.query, requests }] },
          { reply := .waits })

/-- `acquire`, up to its return or its wait. -/
def acquire (s : State) (c : Call) : State × Effect :=
  match normalise c.requests with
  | .error e => (s, { reply := .throws e })
  | .ok requests =>
    if ¬c.demand ∧ c.stopped then (s, { reply := .cancelled })
    else if c.fault = some .ticket then (s, { reply := .throws .badAlloc })
    else if requests = [] then
      ({ s with tickets := s.tickets ++ [[]] }, { reply := .granted [] })
    else admitCall s c requests

/-- A waiting call evaluates its condition (lines 153–160). The guard removes its position, and
    notifies if another call waits. -/
def wake (s : State) (w : Waiter) (stopped : Bool) : State × Effect :=
  let left := s.waiting.erase w
  if stopped then
    ({ s with backends := unregister w.requests s.backends, waiting := left },
      { reply := .cancelled, notified := left ≠ [] })
  else if w.ready s then
    ({ grant s w.requests with waiting := left },
      { reply := .granted w.requests, notified := left ≠ [] })
  else (s, { reply := .waits })

/-- `~ticket` (lines 60–76). -/
def destroy (s : State) (requests : List Request) : State × Effect :=
  let left := s.tickets.erase requests
  if requests = [] then ({ s with tickets := left }, { reply := .released })
  else
    let (backends, freed) := release requests s.backends
    ({ s with backends, tickets := left },
      { reply := .released, notified := freed && s.waiting ≠ [] })

inductive Action where
  | acquire (c : Call)
  | wake (w : Waiter) (stopped : Bool)
  | destroy (requests : List Request)

/-- One critical section. A call that waits makes no other call; a ticket is destroyed while it
    is live. -/
def step (s : State) : Action → Option (State × Effect)
  | .acquire c =>
    if ∀ w ∈ s.waiting, w.call ≠ c.call then some (acquire s c) else none
  | .wake w stopped => if w ∈ s.waiting then some (wake s w stopped) else none
  | .destroy requests => if requests ∈ s.tickets then some (destroy s requests) else none

/-- The state after a step. -/
def next (s : State) (a : Action) : Option State := (step s a).map Prod.fst

/-! ## Normalised requests -/

/-- What the loop accepts: positive limits, and no two neighbours that share a backend but not
    the limit. -/
theorem checkLimits_eq_ok {prev : Option Request} {rs : List Request}
    (h : checkLimits prev rs = .ok ()) :
    (∀ r ∈ rs, 0 < r.limit) ∧
      (prev.toList ++ rs).IsChain fun a b => a.backend = b.backend → a = b := by
  induction rs generalizing prev with
  | nil => cases prev <;> simp
  | cons r rs ih =>
    unfold checkLimits at h
    split_ifs at h with hzero hconflict
    obtain ⟨hpos, hchain⟩ := ih h
    refine ⟨?_, ?_⟩
    · intro x hx
      rcases List.mem_cons.mp hx with rfl | hx
      · omega
      · exact hpos x hx
    · cases prev with
      | none => exact hchain
      | some p =>
        refine List.isChain_cons_cons.mpr ⟨fun hb => ?_, hchain⟩
        have hl : p.limit = r.limit := by
          by_contra hne
          exact hconflict (by simp [hb, hne])
        cases p
        cases r
        simp_all

/-- Dropping repeated backends loses nothing where neighbours on one backend are equal. -/
theorem mem_destutter' {prev : Request} {rs : List Request}
    (h : (prev :: rs).IsChain fun a b => a.backend = b.backend → a = b) (r : Request) :
    r ∈ rs.destutter' (fun a b => a.backend ≠ b.backend) prev ↔ r ∈ prev :: rs := by
  induction rs generalizing prev with
  | nil => simp
  | cons x rs ih =>
    obtain ⟨hx, hrs⟩ := List.isChain_cons_cons.mp h
    by_cases hb : prev.backend = x.backend
    · obtain rfl := hx hb
      rw [List.destutter'_cons_neg _ (by simp), ih hrs]
      simp
    · rw [List.destutter'_cons_pos _ hb, List.mem_cons, ih hrs, ← List.mem_cons]

/-- A sorted list whose neighbours have different backends names each backend once. -/
theorem nodup_backends_of_isChain {rs : List Request}
    (hsorted : rs.Pairwise fun a b => a.backend ≤ b.backend)
    (hchain : rs.IsChain fun a b => a.backend ≠ b.backend) : (rs.map Request.backend).Nodup := by
  have hlt : (rs.map Request.backend).IsChain (· < ·) := by
    rw [List.isChain_map]
    refine List.isChain_iff_getElem.mpr fun i hi => ?_
    exact lt_of_le_of_ne (List.pairwise_iff_getElem.mp hsorted i (i + 1) _ hi (by omega))
      (List.isChain_iff_getElem.mp hchain i hi)
  exact hlt.pairwise.imp fun hab => hab.ne

instance : IsTrans Request fun a b => a.backend ≤ b.backend :=
  ⟨fun _ _ _ hab hbc => le_trans hab hbc⟩

instance : Std.Total fun a b : Request => a.backend ≤ b.backend :=
  ⟨fun a b => le_total a.backend b.backend⟩

/-- **Normalising keeps the requests as a set**: positive limits, each backend once. -/
theorem normalise_eq_ok {requests rs : List Request} (h : normalise requests = .ok rs) :
    (∀ r, r ∈ rs ↔ r ∈ requests) ∧ (rs.map Request.backend).Nodup ∧ ∀ r ∈ rs, 0 < r.limit := by
  have hperm := List.perm_insertionSort (fun a b : Request => a.backend ≤ b.backend) requests
  have hsorted := List.pairwise_insertionSort
    (fun a b : Request => a.backend ≤ b.backend) requests
  unfold normalise at h
  generalize requests.insertionSort (fun a b => a.backend ≤ b.backend) = sorted at h hperm hsorted
  have hnodup := nodup_backends_of_isChain
    (hsorted.sublist (List.destutter_sublist (fun a b => a.backend ≠ b.backend) sorted))
    (List.isChain_destutter _ sorted)
  cases hcheck : checkLimits none sorted with
  | error e => simp [hcheck] at h
  | ok _ =>
    simp only [hcheck, Except.ok.injEq] at h
    subst h
    obtain ⟨hpos, hchain⟩ := checkLimits_eq_ok hcheck
    refine ⟨fun r => ?_, hnodup, fun r hr => ?_⟩
    · rw [← hperm.mem_iff]
      cases sorted with
      | nil => simp
      | cons x rest => exact mem_destutter' hchain r
    · exact hpos r ((List.destutter_sublist _ _).subset hr)

/-! ## The ledger -/

/-- A request list names a backend. -/
def Names (b : ℕ) (rs : List Request) : Prop := ∃ r ∈ rs, r.backend = b

instance (b : ℕ) (rs : List Request) : Decidable (Names b rs) :=
  inferInstanceAs (Decidable (∃ r ∈ rs, r.backend = b))

/-- How many of the request lists name a backend. -/
def uses (b : ℕ) (holders : List (List Request)) : ℕ := holders.countP fun rs => Names b rs

theorem uses_cons (b : ℕ) (rs : List Request) (hs : List (List Request)) :
    uses b (rs :: hs) = uses b hs + if Names b rs then 1 else 0 := by
  simp [uses, List.countP_cons]

theorem uses_perm {b : ℕ} {hs hs' : List (List Request)} (h : hs.Perm hs') :
    uses b hs = uses b hs' :=
  h.countP_eq _

variable {hs T W : List (List Request)}

theorem uses_pos {b : ℕ} : 0 < uses b hs ↔ ∃ rs ∈ hs, Names b rs := by
  simp [uses, List.countP_pos_iff]

/-- The entry of a backend that `a` tickets and `w` waiting calls name. -/
structure Entry (u : Option Usage) (a w : ℕ) : Prop where
  active : activeOf u = a
  waiters : waitersOf u = w
  isSome : u.isSome ↔ 0 < a + w

/-- Each backend once, with a positive limit: what `normalise` returns. -/
structure Normal (rs : List Request) : Prop where
  nodup : (rs.map Request.backend).Nodup
  pos : ∀ r ∈ rs, 0 < r.limit

/-- **The usage table counts the tickets and the waiting calls**, which are normal request
    lists that asked for the entries' limits. -/
structure Ledger (m : Backends) (tickets waiting : List (List Request)) : Prop where
  entry : ∀ b, Entry (m b) (uses b tickets) (uses b waiting)
  limit : ∀ b u, m b = some u →
    ∀ rs ∈ tickets ++ waiting, ∀ r ∈ rs, r.backend = b → u.limit = r.limit
  normal : ∀ rs ∈ tickets ++ waiting, Normal rs

variable {u : Option Usage}

theorem Entry.register {a w : ℕ} (h : Entry u a w) (r : Request) :
    Entry (registerOne r u) a (w + 1) := by
  obtain ⟨ha, hw, -⟩ := h
  cases u with
  | none => exact ⟨ha, by simpa [registerOne, waitersOf] using hw.symm, by simp [registerOne]⟩
  | some u => exact ⟨ha, by simpa [registerOne, waitersOf] using hw, by simp [registerOne]⟩

theorem Entry.unregister {a w : ℕ} (h : Entry u a (w + 1)) : Entry (unregisterOne u) a w := by
  obtain ⟨ha, hw, -⟩ := h
  cases u with
  | none => simp [waitersOf] at hw
  | some u =>
    simp only [activeOf, waitersOf, Option.elim_some] at ha hw
    simp only [unregisterOne, Option.bind_some, hw, ha, Nat.add_sub_cancel]
    split_ifs with h0
    · exact ⟨by simp [activeOf, h0.2], by simp [waitersOf, h0.1], by simp; omega⟩
    · exact ⟨by simp [activeOf], by simp [waitersOf], by simp; omega⟩

theorem Entry.charge {a w : ℕ} (h : Entry u a (w + 1)) : Entry (chargeOne u) (a + 1) (w + 1) := by
  obtain ⟨ha, hw, -⟩ := h
  cases u with
  | none => simp [waitersOf] at hw
  | some u =>
    simp only [activeOf, waitersOf, Option.elim_some] at ha hw
    exact ⟨by simp [chargeOne, activeOf, ha], by simp [chargeOne, waitersOf, hw],
      by simp [chargeOne]⟩

theorem Entry.release {a w : ℕ} (h : Entry u (a + 1) w) : Entry (releaseOne u) a w := by
  obtain ⟨ha, hw, -⟩ := h
  cases u with
  | none => simp [activeOf] at ha
  | some u =>
    simp only [activeOf, waitersOf, Option.elim_some] at ha hw
    simp only [releaseOne, Option.bind_some, hw, ha, Nat.add_sub_cancel]
    split_ifs with h0
    · exact ⟨by simp [activeOf, h0.1], by simp [waitersOf, h0.2], by simp; omega⟩
    · exact ⟨by simp [activeOf], by simp [waitersOf], by simp; omega⟩

section Loops

variable {rs : List Request} {act : Request → Option Usage → Option Usage} {m : Backends} {b : ℕ}

/-- A loop over a request list leaves the other backends alone. -/
theorem exec_of_not_names (hb : ¬Names b rs) : exec Request.backend act rs m b = m b :=
  exec_of_forall_ne fun r hr heq => hb ⟨r, hr, heq⟩

/-- A loop over a normal request list visits each backend once. -/
theorem exec_of_names (hrs : Normal rs) (hb : Names b rs) :
    ∃ r ∈ rs, r.backend = b ∧ exec Request.backend act rs m b = act r (m b) := by
  obtain ⟨r, hr, rfl⟩ := hb
  exact ⟨r, hr, rfl, exec_of_nodup hrs.nodup hr m⟩

end Loops

/-- The loop of `~ticket` visits the entries as the others do. -/
theorem release_fst (rs : List Request) (m : Backends) :
    (release rs m).1 = exec Request.backend (fun _ => releaseOne) rs m := by
  unfold release
  generalize false = wake
  induction rs generalizing m wake with
  | nil => rfl
  | cons r rs ih => exact ih _ _

/-- The flag `wake` tells of a backend that has room after the loop. -/
theorem release_snd {rs : List Request} (hrs : (rs.map Request.backend).Nodup) {m : Backends}
    {r : Request} (hr : r ∈ rs) {u : Usage} (hu : m r.backend = some u)
    (hroom : u.active - 1 < u.limit) : (release rs m).2 = true := by
  have hkeep : ∀ (rs : List Request) (m : Backends), (rs.foldl (fun (m, wake) r =>
      (Function.update m r.backend (releaseOne (m r.backend)),
        wake || (m r.backend).any fun u => u.active - 1 < u.limit)) (m, true)).2 = true := by
    intro rs
    induction rs with
    | nil => exact fun _ => rfl
    | cons r rs ih => exact fun m => ih _
  unfold release
  generalize false = wake
  induction rs generalizing m wake with
  | nil => cases hr
  | cons x rs ih =>
    rw [List.map_cons, List.nodup_cons] at hrs
    rw [List.foldl_cons]
    rcases List.mem_cons.mp hr with rfl | hr
    · simp only [hu, Option.any_some, hroom, decide_true, Bool.or_true]
      exact hkeep rs _
    · have hne : r.backend ≠ x.backend := fun heq => hrs.1 (List.mem_map.mpr ⟨r, hr, heq⟩)
      exact ih hrs.2 hr (by rwa [Function.update_of_ne hne]) _

/-- One loop that changes no limit: what it leaves of the entries it visits decides the
    ledger. -/
theorem Ledger.loop {m : Backends} {T W T' W' : List (List Request)} {rs : List Request}
    {f : Option Usage → Option Usage} (h : Ledger m T W) (hrs : Normal rs)
    (hf : ∀ u u', f u = some u' → ∃ v, u = some v ∧ v.limit = u'.limit)
    (hnamed : ∀ b, Names b rs → Entry (f (m b)) (uses b T') (uses b W'))
    (hother : ∀ b, ¬Names b rs → uses b T' = uses b T ∧ uses b W' = uses b W)
    (hsub : ∀ rs ∈ T' ++ W', rs ∈ T ++ W) :
    Ledger (exec Request.backend (fun _ => f) rs m) T' W' := by
  refine ⟨fun b => ?_, fun b u' hu' rs' hrs' r' hr' hb' => ?_,
    fun rs' hrs' => h.normal rs' (hsub rs' hrs')⟩
  · by_cases hb : Names b rs
    · obtain ⟨r, -, -, hm⟩ := exec_of_names hrs hb
      rw [hm]
      exact hnamed b hb
    · rw [exec_of_not_names hb, (hother b hb).1, (hother b hb).2]
      exact h.entry b
  · have hold : ∃ u, m b = some u ∧ u.limit = u'.limit := by
      by_cases hb : Names b rs
      · obtain ⟨r, -, -, hm⟩ := exec_of_names hrs hb
        rw [hm] at hu'
        exact hf _ _ hu'
      · rw [exec_of_not_names hb] at hu'
        exact ⟨u', hu', rfl⟩
    obtain ⟨u, hu, hlimit⟩ := hold
    rw [← hlimit]
    exact h.limit b u hu rs' (hsub rs' hrs') r' hr' hb'

theorem Ledger.unregister {m : Backends} {rs : List Request}
    (h : Ledger m T (rs :: W)) : Ledger (unregister rs m) T W := by
  refine h.loop (h.normal rs (by simp)) ?_ (fun b hb => ?_) (fun b hb => ?_) (by grind)
  · intro u u' hu'
    obtain ⟨v, rfl, hv⟩ := Option.bind_eq_some_iff.mp hu'
    refine ⟨v, rfl, ?_⟩
    dsimp only at hv
    split_ifs at hv
    cases hv
    rfl
  · have hentry := h.entry b
    rw [uses_cons, if_pos hb] at hentry
    exact hentry.unregister
  · rw [uses_cons, if_neg hb]
    exact ⟨rfl, rfl⟩

theorem Ledger.charge {m : Backends} {rs : List Request}
    (h : Ledger m T (rs :: W)) : Ledger (charge rs m) (rs :: T) (rs :: W) := by
  refine h.loop (h.normal rs (by simp)) ?_ (fun b hb => ?_) (fun b hb => ?_) (by simp)
  · intro u u' hu'
    obtain ⟨v, rfl, rfl⟩ := Option.map_eq_some_iff.mp hu'
    exact ⟨v, rfl, rfl⟩
  · have hentry := h.entry b
    rw [uses_cons, if_pos hb] at hentry
    rw [uses_cons, uses_cons, if_pos hb]
    exact hentry.charge
  · rw [uses_cons, uses_cons, if_neg hb]
    exact ⟨rfl, rfl⟩

theorem Ledger.release {m : Backends} {rs : List Request}
    (h : Ledger m (rs :: T) W) : Ledger (release rs m).1 T W := by
  rw [release_fst]
  refine h.loop (h.normal rs (by simp)) ?_ (fun b hb => ?_) (fun b hb => ?_) (by simp +contextual)
  · intro u u' hu'
    obtain ⟨v, rfl, hv⟩ := Option.bind_eq_some_iff.mp hu'
    refine ⟨v, rfl, ?_⟩
    dsimp only at hv
    split_ifs at hv
    cases hv
    rfl
  · have hentry := h.entry b
    rw [uses_cons, if_pos hb] at hentry
    exact hentry.release
  · rw [uses_cons, if_neg hb]
    exact ⟨rfl, rfl⟩

/-- A request that a table's limits agree with. -/
def Agrees (m : Backends) (rs : List Request) : Prop :=
  ∀ r ∈ rs, ∀ u, m r.backend = some u → u.limit = r.limit

theorem Ledger.register {m : Backends} (h : Ledger m T W) {rs : List Request} (hrs : Normal rs)
    (hagree : Agrees m rs) : Ledger (register rs m) T (rs :: W) := by
  refine ⟨fun b => ?_, fun b u hu rs' hrs' r' hr' hb' => ?_, fun rs' hrs' => ?_⟩
  · by_cases hb : Names b rs
    · obtain ⟨r, -, -, hm⟩ := exec_of_names hrs hb
      rw [SharedScanBudget.register, hm, uses_cons, if_pos hb]
      exact (h.entry b).register r
    · rw [SharedScanBudget.register, exec_of_not_names hb, uses_cons, if_neg hb]
      exact h.entry b
  · -- a holder that was there has an entry with its limit; the new one agrees with the table
    have hold : rs' ∈ T ++ W → ∃ v, m b = some v ∧ v.limit = r'.limit := by
      intro hmem
      have hpos : 0 < uses b T + uses b W := by
        rcases List.mem_append.mp hmem with hmem | hmem
        · exact Nat.add_pos_left (uses_pos.mpr ⟨rs', hmem, r', hr', hb'⟩) _
        · exact Nat.add_pos_right _ (uses_pos.mpr ⟨rs', hmem, r', hr', hb'⟩)
      obtain ⟨v, hv⟩ := Option.isSome_iff_exists.mp ((h.entry b).isSome.mpr hpos)
      exact ⟨v, hv, h.limit b v hv rs' hmem r' hr' hb'⟩
    have hmem : rs' = rs ∨ rs' ∈ T ++ W := by
      simp only [List.mem_append, List.mem_cons] at hrs' ⊢
      tauto
    by_cases hb : Names b rs
    · obtain ⟨r, hr, hrb, hm⟩ := @exec_of_names rs registerOne m b hrs hb
      rw [SharedScanBudget.register, hm] at hu
      have hur : u.limit = r.limit := by
        cases hmb : m b with
        | none =>
          rw [hmb] at hu
          cases hu
          rfl
        | some v =>
          rw [hmb] at hu
          cases hu
          exact hagree r hr v (hrb ▸ hmb)
      rcases hmem with rfl | hmem
      · rw [hur, List.inj_on_of_nodup_map hrs.nodup hr hr' (hrb.trans hb'.symm)]
      · obtain ⟨v, hv, hlimit⟩ := hold hmem
        rw [hur, ← hagree r hr v (hrb ▸ hv), hlimit]
    · rw [SharedScanBudget.register, exec_of_not_names hb] at hu
      rcases hmem with rfl | hmem
      · exact absurd ⟨r', hr', hb'⟩ hb
      · exact h.limit b u hu rs' hmem r' hr' hb'
  · by_cases heq : rs' = rs
    · exact heq ▸ hrs
    · exact h.normal rs' (by grind)

theorem Ledger.perm {m : Backends} {T W T' W' : List (List Request)} (h : Ledger m T W)
    (hT : T.Perm T') (hW : W.Perm W') : Ledger m T' W' := by
  refine ⟨fun b => ?_, fun b u hu rs hrs => ?_, fun rs hrs => ?_⟩
  · rw [← uses_perm hT, ← uses_perm hW]
    exact h.entry b
  · exact h.limit b u hu rs ((hT.append hW).mem_iff.mpr hrs)
  · exact h.normal rs ((hT.append hW).mem_iff.mpr hrs)

/-- **The holders determine the table.** -/
theorem Ledger.unique {m m' : Backends} (h : Ledger m T W) (h' : Ledger m' T W) : m = m' := by
  funext b
  obtain ⟨ha, hw, hs⟩ := h.entry b
  obtain ⟨ha', hw', hs'⟩ := h'.entry b
  by_cases hpos : 0 < uses b T + uses b W
  · obtain ⟨u, hu⟩ := Option.isSome_iff_exists.mp (hs.mpr hpos)
    obtain ⟨u', hu'⟩ := Option.isSome_iff_exists.mp (hs'.mpr hpos)
    obtain ⟨rs, hrs, r, hr, hb⟩ : ∃ rs ∈ T ++ W, Names b rs := by
      rcases Nat.add_pos_iff_pos_or_pos.mp hpos with hpos | hpos
      · obtain ⟨rs, hrs, hb⟩ := uses_pos.mp hpos
        exact ⟨rs, List.mem_append_left _ hrs, hb⟩
      · obtain ⟨rs, hrs, hb⟩ := uses_pos.mp hpos
        exact ⟨rs, List.mem_append_right _ hrs, hb⟩
    have hlimit : u.limit = u'.limit :=
      (h.limit b u hu rs hrs r hr hb).trans (h'.limit b u' hu' rs hrs r hr hb).symm
    have hactive : u.active = u'.active := by
      simpa [hu, hu', activeOf] using ha.trans ha'.symm
    have hwaiters : u.waiters = u'.waiters := by
      simpa [hu, hu', waitersOf] using hw.trans hw'.symm
    rw [hu, hu', Option.some.injEq]
    cases u
    cases u'
    simp_all
  · rw [Option.isSome_iff_ne_none] at hs hs'
    rw [not_not.mp (mt hs.mp hpos), not_not.mp (mt hs'.mp hpos)]

/-- A request that is registered or charged has an entry with its limit. -/
theorem Ledger.limit_of_mem {m : Backends} (h : Ledger m T W) {rs : List Request}
    (hrs : rs ∈ T ++ W) {r : Request} (hr : r ∈ rs) :
    ∃ u, m r.backend = some u ∧ u.limit = r.limit := by
  have hpos : 0 < uses r.backend T + uses r.backend W := by
    rcases List.mem_append.mp hrs with hrs | hrs
    · exact Nat.add_pos_left (uses_pos.mpr ⟨rs, hrs, r, hr, rfl⟩) _
    · exact Nat.add_pos_right _ (uses_pos.mpr ⟨rs, hrs, r, hr, rfl⟩)
  obtain ⟨u, hu⟩ := Option.isSome_iff_exists.mp ((h.entry r.backend).isSome.mpr hpos)
  exact ⟨u, hu, h.limit _ u hu rs hrs r hr rfl⟩

/-! ## The invariant -/

/-- The request lists of the waiting calls. -/
def State.registered (s : State) : List (List Request) := s.waiting.map Waiter.requests

/-- The invariant. -/
def Inv (s : State) : Prop := Ledger s.backends s.tickets s.registered

theorem inv_init : Inv {} := by
  refine ⟨fun b => ⟨rfl, rfl, ?_⟩, ?_, ?_⟩ <;> simp [uses, State.registered]

/-- What a call may do: its critical sections, by what they answer. -/
inductive Steps (s : State) : Action → State → Effect → Prop where
  | thrown (c : Call) (error : Error) : Steps s (.acquire c) s { reply := .throws error }
  | refused (c : Call) (hdemand : c.demand = false) : Steps s (.acquire c) s { reply := .cancelled }
  | empty (c : Call) (hok : normalise c.requests = .ok []) :
    Steps s (.acquire c) { s with tickets := s.tickets ++ [[]] } { reply := .granted [] }
  | granted (c : Call) (rs : List Request) (hok : normalise c.requests = .ok rs)
      (hagree : Agrees s.backends rs)
      (hready : c.demand = false →
        available { s with backends := register rs s.backends } c.query rs) :
    Steps s (.acquire c) (grant { s with backends := register rs s.backends } rs)
      { reply := .granted rs }
  | joined (c : Call) (rs : List Request) (hok : normalise c.requests = .ok rs)
      (hagree : Agrees s.backends rs)
      (hready : ¬available { s with backends := register rs s.backends } c.query rs) :
    Steps s (.acquire c)
      { s with
        backends := register rs s.backends
        waiting := s.waiting ++ [{ call := c.call, query := c.query, requests := rs }] }
      { reply := .waits }
  | woken (w : Waiter) (hw : w ∈ s.waiting) (hready : w.ready s) :
    Steps s (.wake w false) { grant s w.requests with waiting := s.waiting.erase w }
      { reply := .granted w.requests, notified := s.waiting.erase w ≠ [] }
  | slept (w : Waiter) (hw : w ∈ s.waiting) : Steps s (.wake w false) s { reply := .waits }
  | withdrawn (w : Waiter) (hw : w ∈ s.waiting) :
    Steps s (.wake w true)
      { s with backends := unregister w.requests s.backends, waiting := s.waiting.erase w }
      { reply := .cancelled, notified := s.waiting.erase w ≠ [] }
  | dropped (hrs : [] ∈ s.tickets) :
    Steps s (.destroy []) { s with tickets := s.tickets.erase [] } { reply := .released }
  | released (rs : List Request) (hrs : rs ∈ s.tickets) :
    Steps s (.destroy rs)
      { s with backends := (release rs s.backends).1, tickets := s.tickets.erase rs }
      { reply := .released, notified := (release rs s.backends).2 && s.waiting ≠ [] }

variable {s s' : State}

/-- **A way out that grants nothing leaves the state as it was.** -/
theorem undo_eq (h : Inv s) {rs : List Request} (hrs : Normal rs) (hagree : Agrees s.backends rs)
    (n : ℕ) : undo s rs n = s := by
  have htake : Normal (rs.take n) := by
    refine ⟨?_, fun r hr => hrs.pos r (List.mem_of_mem_take hr)⟩
    exact hrs.nodup.sublist ((List.take_sublist n rs).map _)
  have hback : unregister (rs.take n) (register (rs.take n) s.backends) = s.backends :=
    (Ledger.register h htake fun r hr => hagree r (List.mem_of_mem_take hr)).unregister.unique h
  rw [undo, hback]

variable {e : Effect}

theorem admitCall_spec {c : Call} {rs : List Request} (h : Inv s)
    (hok : normalise c.requests = .ok rs) (hadmits : admitCall s c rs = (s', e)) :
    Steps s (.acquire c) s' e := by
  obtain ⟨-, hnodup, hpos⟩ := normalise_eq_ok hok
  have hrs : Normal rs := ⟨hnodup, hpos⟩
  unfold admitCall at hadmits
  split at hadmits
  next =>
    cases hadmits
    exact .thrown c _
  next hchanged =>
    have hagree : Agrees s.backends rs := by
      intro r hr u hu
      by_contra hne
      exact hchanged (List.any_eq_true.mpr ⟨r, hr, by simp [hu, hne]⟩)
    simp only [undo_eq h hrs hagree] at hadmits
    cases hfail : c.failsAt rs.length with
    | some j =>
      simp only [hfail] at hadmits
      cases hadmits
      exact .thrown c _
    | none =>
      simp only [hfail] at hadmits
      by_cases hdemand : c.demand = true
      · rw [if_pos hdemand] at hadmits
        cases hadmits
        exact .granted c rs hok hagree (by simp [hdemand])
      · rw [if_neg hdemand] at hadmits
        split_ifs at hadmits with hready hstop hinsert
        · cases hadmits
          exact .refused c (by simpa using hdemand)
        · cases hadmits
          exact .granted c rs hok hagree fun _ => hready
        · cases hadmits
          exact .thrown c _
        · cases hadmits
          exact .joined c rs hok hagree hready

variable {a : Action}

/-- **Every step is one of these.** -/
theorem step_spec (h : Inv s) (hstep : step s a = some (s', e)) : Steps s a s' e := by
  cases a with
  | acquire c =>
    simp only [step, Option.ite_none_right_eq_some, Option.some.injEq] at hstep
    obtain ⟨-, hstep⟩ := hstep
    unfold acquire at hstep
    split at hstep
    next error hok =>
      cases hstep
      exact .thrown c error
    next rs hok =>
      split_ifs at hstep with hstop hticket hempty
      · cases hstep
        exact .refused c (by simpa using hstop.1)
      · cases hstep
        exact .thrown c _
      · cases hstep
        exact .empty c (hempty ▸ hok)
      · exact admitCall_spec h hok hstep
  | wake w stopped =>
    simp only [step, Option.ite_none_right_eq_some, Option.some.injEq] at hstep
    obtain ⟨hw, hstep⟩ := hstep
    cases stopped with
    | true =>
      cases hstep
      exact .withdrawn w hw
    | false =>
      simp only [wake, Bool.false_eq_true, if_false] at hstep
      split_ifs at hstep with hready
      · cases hstep
        exact .woken w hw hready
      · cases hstep
        exact .slept w hw
  | destroy rs =>
    simp only [step, Option.ite_none_right_eq_some, Option.some.injEq] at hstep
    obtain ⟨hrs, hstep⟩ := hstep
    unfold destroy at hstep
    split_ifs at hstep with hempty
    · subst hempty
      cases hstep
      exact .dropped hrs
    · cases hstep
      exact .released rs hrs

theorem Normal.of_normalise {requests rs : List Request} (h : normalise requests = .ok rs) :
    Normal rs := by
  obtain ⟨-, hnodup, hpos⟩ := normalise_eq_ok h
  exact ⟨hnodup, hpos⟩

/-- An empty request list is no holder. -/
theorem Ledger.cons_nil {m : Backends} : Ledger m ([] :: T) W ↔ Ledger m T W := by
  have huses : ∀ b, uses b ([] :: T) = uses b T := fun b => by simp [uses_cons, Names]
  constructor
  · intro h
    exact ⟨fun b => huses b ▸ h.entry b, fun b u hu rs hrs => h.limit b u hu rs (by grind),
      fun rs hrs => h.normal rs (by grind)⟩
  · intro h
    refine ⟨fun b => (huses b).symm ▸ h.entry b, fun b u hu rs hrs r hr => ?_, fun rs hrs => ?_⟩
    · exact h.limit b u hu rs (by grind) r hr
    · by_cases hnil : rs = []
      · subst hnil
        exact ⟨by simp, by simp⟩
      · exact h.normal rs (by grind)

/-- **Every step keeps the ledger.** -/
theorem inv_step (h : Inv s) (hstep : Steps s a s' e) : Inv s' := by
  have hperm : ∀ {w}, w ∈ s.waiting →
      s.registered.Perm (w.requests :: (s.waiting.erase w).map Waiter.requests) :=
    fun hw => (List.perm_cons_erase hw).map Waiter.requests
  have happend : ∀ rs : List Request, (rs :: s.tickets).Perm (s.tickets ++ [rs]) :=
    fun rs => (List.perm_append_singleton rs s.tickets).symm
  cases hstep with
  | thrown c error => exact h
  | refused c hdemand => exact h
  | slept w hw => exact h
  | empty c hok => exact (Ledger.cons_nil.mpr h).perm (happend []) (.refl _)
  | granted c rs hok hagree hready =>
    have hcharged := (Ledger.register h (.of_normalise hok) hagree).charge.unregister
    exact hcharged.perm (happend rs) (.refl _)
  | joined c rs hok hagree hready =>
    refine (Ledger.register h (.of_normalise hok) hagree).perm (.refl _) ?_
    simp only [State.registered, List.map_append, List.map_cons, List.map_nil]
    exact (List.perm_append_singleton _ _).symm
  | woken w hw hready =>
    have hheld := Ledger.perm h (.refl _) (hperm hw)
    exact hheld.charge.unregister.perm (happend w.requests) (.refl _)
  | withdrawn w hw => exact (Ledger.perm h (.refl _) (hperm hw)).unregister
  | dropped hrs => exact Ledger.cons_nil.mp (Ledger.perm h (List.perm_cons_erase hrs) (.refl _))
  | released rs hrs => exact (Ledger.perm h (List.perm_cons_erase hrs) (.refl _)).release

theorem inv_next (h : Inv s) (hnext : next s a = some s') : Inv s' := by
  obtain ⟨⟨s1, e⟩, hstep, rfl⟩ := Option.map_eq_some_iff.mp hnext
  exact inv_step h (step_spec h hstep)

/-- **Every reachable state has its ledger.** -/
theorem inv_run {actions : List Action} (h : run next {} actions = some s) : Inv s :=
  run_invariant (fun _ _ _ hs hstep => inv_next hs hstep) inv_init h

/-! ## Room, order and wake-ups -/

/-- What `available` tests: no older query waits, and every backend has room. -/
def Admissible (s : State) (query : ℕ) (rs : List Request) : Prop :=
  (∀ other ∈ s.waiting, ¬other.query < query) ∧ ∀ r ∈ rs, s.active r.backend < r.limit

theorem available_iff {query : ℕ} {rs : List Request}
    (hentry : ∀ r ∈ rs, ∃ u, s.backends r.backend = some u ∧ u.limit = r.limit) :
    available s query rs = true ↔ Admissible s query rs := by
  unfold available Admissible
  rw [Bool.and_eq_true, List.all_eq_true, List.all_eq_true]
  refine and_congr (by simp) (forall₂_congr fun r hr => ?_)
  obtain ⟨u, hu, hlimit⟩ := hentry r hr
  simp [State.active, activeOf, hu, hlimit]

theorem ready_iff (h : Inv s) {w : Waiter} (hw : w ∈ s.waiting) :
    w.ready s = true ↔ Admissible s w.query w.requests :=
  available_iff fun _ hr => h.limit_of_mem
    (List.mem_append_right _ (List.mem_map.mpr ⟨w, hw, rfl⟩)) hr

theorem Inv.active (h : Inv s) (b : ℕ) : s.active b = uses b s.tickets :=
  (h.entry b).active

theorem Inv.waiters (h : Inv s) (b : ℕ) : s.waiters b = uses b s.registered :=
  (h.entry b).waiters

/-- Registering changes no active count. -/
theorem active_register (h : Inv s) {rs : List Request} (hrs : Normal rs)
    (hagree : Agrees s.backends rs) (b : ℕ) :
    State.active { s with backends := register rs s.backends } b = s.active b :=
  ((Ledger.register h hrs hagree).entry b).active.trans (h.active b).symm

theorem available_register (h : Inv s) {rs : List Request} (hrs : Normal rs)
    (hagree : Agrees s.backends rs) (query : ℕ) :
    available { s with backends := register rs s.backends } query rs = true ↔
      Admissible s query rs := by
  rw [available_iff fun r hr => (Ledger.register h hrs hagree).limit_of_mem (by simp) hr]
  unfold Admissible
  simp only [active_register h hrs hagree]

theorem uses_append_singleton (b : ℕ) (hs : List (List Request)) (rs : List Request) :
    uses b (hs ++ [rs]) = uses b hs + if Names b rs then 1 else 0 := by
  rw [uses_perm (List.perm_append_singleton rs hs), uses_cons]

theorem uses_erase {b : ℕ} {rs : List Request} (h : rs ∈ hs) :
    uses b (hs.erase rs) + (if Names b rs then 1 else 0) = uses b hs := by
  rw [uses_perm (List.perm_cons_erase h), uses_cons]

/-- The query of a speculative call. -/
def Action.speculative : Action → Option ℕ
  | .acquire c => if c.demand then none else some c.query
  | .wake w _ => some w.query
  | .destroy _ => none

/-- **A speculative ticket is granted in order, and where there is room.** -/
theorem granted_admissible (h : Inv s)
    (hstep : Steps s a s' e) {query : ℕ} {rs : List Request} (hquery : a.speculative = some query)
    (hreply : e.reply = .granted rs) (hrs : rs ≠ []) : Admissible s query rs := by
  cases hstep with
  | empty c hok =>
    cases hreply
    exact absurd rfl hrs
  | granted c rs' hok hagree hready =>
    cases hreply
    have hdemand : c.demand = false := by
      by_contra hne
      simp [Action.speculative, hne] at hquery
    simp only [Action.speculative, hdemand, Bool.false_eq_true, if_false, Option.some.injEq]
      at hquery
    subst hquery
    exact (available_register h (.of_normalise hok) hagree c.query).mp (hready hdemand)
  | woken w hw hready =>
    cases hreply
    cases hquery
    exact (ready_iff h hw).mp hready
  | thrown | refused | joined | slept | withdrawn | dropped | released => cases hreply

/-- **Without live tickets some waiting call may go on.** -/
theorem exists_ready (h : Inv s) (htickets : ∀ rs ∈ s.tickets, rs = [])
    (hwaiting : s.waiting ≠ []) : ∃ w ∈ s.waiting, w.ready s = true := by
  obtain ⟨w, hw, hmin⟩ : ∃ w ∈ s.waiting, ∀ o ∈ s.waiting, w.query ≤ o.query := by
    cases hmin : s.waiting.argmin Waiter.query with
    | none => exact absurd (List.argmin_eq_none.mp hmin) hwaiting
    | some w => exact ⟨w, List.argmin_mem hmin, fun o ho => List.le_of_mem_argmin ho hmin⟩
  refine ⟨w, hw, (ready_iff h hw).mpr ⟨fun o ho => not_lt.mpr (hmin o ho), fun r hr => ?_⟩⟩
  have hzero : s.active r.backend = 0 := by
    rw [h.active]
    refine Nat.eq_zero_of_not_pos fun hpos => ?_
    obtain ⟨rs, hrs, x, hx, -⟩ := uses_pos.mp hpos
    rw [htickets rs hrs] at hx
    cases hx
  have hnormal := h.normal w.requests
    (List.mem_append_right _ (List.mem_map.mpr ⟨w, hw, rfl⟩))
  rw [hzero]
  exact hnormal.pos r hr

/-- A ticket's end that gives a waiting call room sets the flag `wake`. -/
theorem release_wakes (h : Inv s) {rs : List Request} (hrs : rs ∈ s.tickets) {r : Request}
    (hnames : Names r.backend rs) {u : Usage} (hu : s.backends r.backend = some u)
    (hroom : uses r.backend (s.tickets.erase rs) < u.limit) : (release rs s.backends).2 = true := by
  obtain ⟨x, hx, hxr⟩ := hnames
  have hactive : u.active = uses r.backend s.tickets := by
    simpa [State.active, hu, activeOf] using h.active r.backend
  have herase := uses_erase (b := r.backend) hrs
  rw [if_pos ⟨x, hx, hxr⟩] at herase
  refine release_snd (h.normal rs (List.mem_append_left _ hrs)).nodup hx (hxr ▸ hu) ?_
  omega

/-- **A step that lets a waiting call go on notifies.** -/
theorem ready_notified (h : Inv s) (hstep : Steps s a s' e) {w : Waiter} (hw : w ∈ s'.waiting)
    (hready : w.ready s' = true) : w ∈ s.waiting ∧ w.ready s = true ∨ e.notified = true := by
  have h' := inv_step h hstep
  rw [ready_iff h' hw] at hready
  -- where the tickets only grow, a call that may go on now could go on before
  have hgrow : (∀ b, uses b s.tickets ≤ uses b s'.tickets) → w ∈ s.waiting →
      (∀ o ∈ s.waiting, o ∈ s'.waiting) → w ∈ s.waiting ∧ w.ready s = true := by
    intro huses hws hsub
    refine ⟨hws, (ready_iff h hws).mpr ⟨fun o ho => hready.1 o (hsub o ho), fun r hr => ?_⟩⟩
    have hlt := hready.2 r hr
    rw [h'.active] at hlt
    rw [h.active]
    exact lt_of_le_of_lt (huses r.backend) hlt
  cases hstep with
  | thrown | refused | slept => exact .inl (hgrow (fun _ => le_rfl) hw fun _ ho => ho)
  | empty c hok =>
    exact .inl (hgrow (fun b => by simp [uses_append_singleton]) hw fun _ ho => ho)
  | granted c rs hok hagree hadmissible =>
    exact .inl (hgrow (fun b => by simp [grant, uses_append_singleton]) hw fun _ ho => ho)
  | joined c rs hok hagree hwaits =>
    refine .inl (hgrow (fun _ => le_rfl) ?_ fun o ho => List.mem_append_left _ ho)
    rcases List.mem_append.mp hw with hw | hw
    · exact hw
    · obtain rfl := List.mem_singleton.mp hw
      refine absurd ?_ hwaits
      rw [available_register h (.of_normalise hok) hagree]
      refine ⟨fun o ho => hready.1 o (List.mem_append_left _ ho), fun r hr => ?_⟩
      rw [← active_register h (.of_normalise hok) hagree]
      exact hready.2 r hr
  | woken w' hw' hready' => exact .inr (by simpa using List.ne_nil_of_mem hw)
  | withdrawn w' hw' => exact .inr (by simpa using List.ne_nil_of_mem hw)
  | dropped hrs =>
    refine .inl (hgrow (fun b => ?_) hw fun _ ho => ho)
    have herase := uses_erase (b := b) hrs
    simp only [Names, List.not_mem_nil, false_and, exists_false, if_false, Nat.add_zero] at herase
    exact herase.ge
  | released rs hrs =>
    by_cases hfreed : (release rs s.backends).2 = true
    · exact .inr (by simpa [hfreed] using List.ne_nil_of_mem hw)
    · refine .inl ⟨hw, (ready_iff h hw).mpr ⟨hready.1, fun r hr => ?_⟩⟩
      have hlt := hready.2 r hr
      rw [h'.active] at hlt
      obtain ⟨u, hu, hlimit⟩ := h.limit_of_mem
        (List.mem_append_right _ (List.mem_map.mpr ⟨w, hw, rfl⟩)) hr
      by_cases hnames : Names r.backend rs
      · exact absurd (release_wakes h hrs hnames hu (hlimit ▸ hlt)) hfreed
      · have herase := uses_erase (b := r.backend) hrs
        rw [if_neg hnames, Nat.add_zero] at herase
        rw [h.active, ← herase]
        exact hlt

/-- A step charges a whole request list, or nothing. -/
def ChargesWhole (s : State) (a : Action) (s' : State) (e : Effect) : Prop :=
  match e.reply with
  | .granted rs =>
    s'.tickets = s.tickets ++ [rs] ∧
      (∀ b, s'.active b = s.active b + if Names b rs then 1 else 0) ∧
      ∀ c, a = .acquire c → ∀ r, r ∈ rs ↔ r ∈ c.requests
  | .released => ∃ rs, s'.tickets = s.tickets.erase rs ∧
      ∀ b, s'.active b + (if Names b rs then 1 else 0) = s.active b
  | _ => s'.tickets = s.tickets ∧ ∀ b, s'.active b = s.active b

/-- A call that fails, or is cancelled, leaves the accounting as it was before the call: what it
    registered before its wait, and no more, is taken back. -/
def LeavesNothing (s : State) (a : Action) (s' : State) (e : Effect) : Prop :=
  match a, e.reply with
  | .acquire _, .throws _ => s' = s
  | .acquire _, .cancelled => s' = s
  | .acquire c, .waits => ∃ w, s'.waiting = s.waiting ++ [w] ∧ w.query = c.query ∧
      (∀ r, r ∈ w.requests ↔ r ∈ c.requests) ∧
      ∀ b, s'.waiters b = s.waiters b + if Names b w.requests then 1 else 0
  | .wake w _, .cancelled => s'.waiting = s.waiting.erase w ∧
      ∀ b, s'.waiters b + (if Names b w.requests then 1 else 0) = s.waiters b
  | _, _ => True

theorem chargesWhole (h : Inv s) (hstep : Steps s a s' e) : ChargesWhole s a s' e := by
  have h' := inv_step h hstep
  unfold ChargesWhole
  simp only [h.active, h'.active]
  cases hstep with
  | thrown | refused | slept | joined | withdrawn => exact ⟨rfl, fun _ => rfl⟩
  | empty c hok =>
    refine ⟨rfl, fun b => uses_append_singleton b _ _, fun c' hc => ?_⟩
    cases hc
    exact (normalise_eq_ok hok).1
  | granted c rs hok hagree hready =>
    refine ⟨rfl, fun b => uses_append_singleton b _ _, fun c' hc => ?_⟩
    cases hc
    exact (normalise_eq_ok hok).1
  | woken w hw hready => exact ⟨rfl, fun b => uses_append_singleton b _ _, fun c hc => by cases hc⟩
  | dropped hrs => exact ⟨[], rfl, fun b => uses_erase hrs⟩
  | released rs hrs => exact ⟨rs, rfl, fun b => uses_erase hrs⟩

theorem leavesNothing (h : Inv s) (hstep : Steps s a s' e) : LeavesNothing s a s' e := by
  have h' := inv_step h hstep
  unfold LeavesNothing
  simp only [h.waiters, h'.waiters]
  cases hstep with
  | thrown | refused => rfl
  | empty | granted | woken | slept | dropped | released => trivial
  | joined c rs hok hagree hready =>
    refine ⟨_, rfl, rfl, (normalise_eq_ok hok).1, fun b => ?_⟩
    simp [State.registered, uses_append_singleton]
  | withdrawn w hw =>
    refine ⟨rfl, fun b => ?_⟩
    rw [State.registered, ← uses_cons]
    exact (uses_perm ((List.perm_cons_erase hw).map Waiter.requests)).symm

/-- **Every interleaving of calls and ticket destructions keeps its accounts**, grants a
    speculative ticket that names a backend in order and where there is room, charges a request
    as a whole or not at all, takes back what a failed or cancelled call registered, never
    strands the waiting calls, and notifies whenever one of them may go on. -/
theorem budget_accounts_orders_and_wakes {actions : List Action} {s : State}
    (h : run next {} actions = some s) :
    (∀ b, s.active b = uses b s.tickets ∧ s.waiters b = uses b (s.waiting.map Waiter.requests) ∧
      ((s.backends b).isSome ↔ 0 < s.active b + s.waiters b)) ∧
    ((∀ rs ∈ s.tickets, rs = []) → s.waiting ≠ [] → ∃ w ∈ s.waiting, w.ready s = true) ∧
    ∀ a s' e, step s a = some (s', e) →
      (∀ query rs, a.speculative = some query → e.reply = .granted rs → rs ≠ [] →
        (∀ r ∈ rs, s.active r.backend < r.limit) ∧
          ∀ other ∈ s.waiting, ¬other.query < query) ∧
      ChargesWhole s a s' e ∧ LeavesNothing s a s' e ∧
      ∀ w ∈ s'.waiting, w.ready s' = true →
        w ∈ s.waiting ∧ w.ready s = true ∨ e.notified = true := by
  have hinv := inv_run h
  refine ⟨fun b => ⟨hinv.active b, hinv.waiters b, ?_⟩, exists_ready hinv, ?_⟩
  · rw [hinv.active, hinv.waiters]
    exact (hinv.entry b).isSome
  · intro a s' e hstep
    have hsteps := step_spec hinv hstep
    refine ⟨fun query rs hquery hreply hrs => ?_, chargesWhole hinv hsteps,
      leavesNothing hinv hsteps, fun w hw hready => ready_notified hinv hsteps hw hready⟩
    exact (granted_admissible hinv hsteps hquery hreply hrs).symm

/-- Query 7 holds backend 3 on demand, and query 1 waits for it. -/
def crowdedActions : List Action :=
  [.acquire { call := 0, requests := [⟨3, 1⟩], query := 7, demand := true },
    .acquire { call := 1, requests := [⟨3, 1⟩, ⟨4, 2⟩], query := 1, demand := false }]

theorem budget_accounts_crowded :
    ∃ s, run next {} crowdedActions = some s ∧ s.active 3 = uses 3 s.tickets ∧ s.waiters 4 = 1 := by
  have hrun : ∃ s, run next {} crowdedActions = some s ∧ s.waiters 4 = 1 := by
    refine ⟨_, rfl, ?_⟩
    decide +kernel
  obtain ⟨s, hs, hwaiters⟩ := hrun
  exact ⟨s, hs, ((budget_accounts_orders_and_wakes hs).1 3).1, hwaiters⟩

/-- A speculative request that names no backend gets a ticket while an older query waits. -/
theorem empty_request_overtakes :
    ∃ s s' : State, run next {} crowdedActions = some s ∧
      step s (.acquire { call := 2, requests := [], query := 5, demand := false }) =
        some (s', { reply := .granted [] }) ∧ ∃ other ∈ s.waiting, other.query < 5 := by
  refine ⟨_, _, rfl, rfl, ⟨1, 1, [⟨3, 1⟩, ⟨4, 2⟩]⟩, ?_, by decide⟩
  decide +kernel

end Sirius.ScanManager.SharedScanBudget
