import Sirius.Common.Trace
import Sirius.Exec.Promises

/-!
# Promises in every run

That promises keep what they owe, in every run in which their users take care.

* `Inv.step`: every careful step keeps the invariant.
* `promise_never_forgotten`: the runs in which no promise that still owes its future a result is
  overwritten, and none is completed twice.
-/

namespace Sirius.Exec.Promises

open Sirius.Common

variable {τ : Type*} {broken : τ} {s : State τ} {c p n : ℕ} {q : Promise} {r : Option Promise}

/-! ## Steps -/

/-- The promises or the owners change, and nothing else. -/
theorem Inv.withPromises (h : Inv broken s) {promises : ℕ → Option Promise} {numCores : ℕ}
    (howners : Owners { s with promises := promises, numPromises := n, numCores := numCores }) :
    Inv broken { s with promises := promises, numPromises := n, numCores := numCores } :=
  ⟨h.core, howners, ⟨h.calls.waiting, h.calls.unique, h.calls.called_lt, h.calls.nodup⟩, h.gave,
    h.ended, h.defined⟩

theorem Inv.newPromise (h : Inv broken s) :
    Inv broken { s.setPromise s.numPromises (some { core := some s.numCores, retrieved := false })
      with numPromises := s.numPromises + 1, numCores := s.numCores + 1 } := by
  refine h.withPromises ?_
  have hself : (s.setPromise s.numPromises
      (some { core := some s.numCores, retrieved := false })).promises s.numPromises = _ :=
    setPromise_self
  have hother {p' : ℕ} (hp : p' ≠ s.numPromises) : (s.setPromise s.numPromises
      (some { core := some s.numCores, retrieved := false })).promises p' = s.promises p' :=
    setPromise_of_ne hp
  have howns (p' : ℕ) (q : Promise) (c : ℕ) (hq : (s.setPromise s.numPromises
      (some { core := some s.numCores, retrieved := false })).promises p' = some q)
      (hc : q.core = some c) :
      p' = s.numPromises ∧ c = s.numCores ∧ q.retrieved = false ∨ s.promises p' = some q := by
    by_cases hp : p' = s.numPromises
    · subst hp
      rw [hself] at hq
      cases hq
      cases hc
      exact .inl ⟨rfl, rfl, rfl⟩
    · rw [hother hp] at hq
      exact .inr hq
  refine ⟨fun p' hp' => ?_, fun p' c ⟨q, hq, hc⟩ => ?_, fun c hc => ?_,
    fun p₁ p₂ c ⟨q₁, hq₁, hc₁⟩ ⟨q₂, hq₂, hc₂⟩ => ?_, fun p' q c hq hc => ?_, fun c hr hun => ?_⟩
  · have hle : s.numPromises + 1 ≤ p' := hp'
    refine (hother (by omega)).trans (h.owners.alive_lt p' (by omega))
  · rcases howns p' q c hq hc with ⟨-, rfl, -⟩ | hq
    · exact Nat.lt_succ_self _
    · exact (h.owners.core_lt p' c ⟨q, hq, hc⟩).trans (Nat.lt_succ_self _)
  · have hle : s.numCores + 1 ≤ c := hc
    exact h.owners.fresh c (by omega)
  · rcases howns p₁ q₁ c hq₁ hc₁ with ⟨rfl, rfl, -⟩ | hq₁'
    · rcases howns p₂ q₂ _ hq₂ hc₂ with ⟨rfl, -, -⟩ | hq₂'
      · rfl
      · exact absurd (h.owners.core_lt p₂ _ ⟨q₂, hq₂', hc₂⟩) (lt_irrefl _)
    · rcases howns p₂ q₂ c hq₂ hc₂ with ⟨rfl, rfl, -⟩ | hq₂'
      · exact absurd (h.owners.core_lt p₁ _ ⟨q₁, hq₁', hc₁⟩) (lt_irrefl _)
      · exact h.owners.unique p₁ p₂ c ⟨q₁, hq₁', hc₁⟩ ⟨q₂, hq₂', hc₂⟩
  · rcases howns p' q c hq hc with ⟨-, rfl, hret⟩ | hq
    · exact hret.trans (h.owners.fresh _ le_rfl).symm
    · exact h.owners.retrieved p' q c hq hc
  · obtain ⟨p', q, hq, hc⟩ := h.owners.owned c hr hun
    have hne : p' ≠ s.numPromises := by
      rintro rfl
      rw [h.owners.alive_lt _ le_rfl] at hq
      cases hq
    exact ⟨p', q, (hother hne).trans hq, hc⟩

/-- The future of a core is retrieved. -/
theorem Inv.retrieve (h : Inv broken s) (hp : s.promises p = some q) (hq : q.retrieved = false)
    (hc : q.core = some c) :
    Inv broken ((s.setCore c { s.cores c with retrieved := true, futureValid := true }).setPromise p
      (some { q with retrieved := true })) := by
  have hret : (s.cores c).retrieved = false := (h.owners.retrieved p q c hp hc).symm.trans hq
  have hself := setCore_self (s := s) (c := c)
    (k := { s.cores c with retrieved := true, futureValid := true })
  have hother {c' : ℕ} (hc' : c' ≠ c) := setCore_of_ne (s := s)
    (k := { s.cores c with retrieved := true, futureValid := true }) hc'
  have howns (p' c' : ℕ) : Owns ((s.setCore c { s.cores c with
      retrieved := true, futureValid := true }).setPromise p (some { q with retrieved := true }))
      p' c' ↔ Owns s p' c' := by
    by_cases hp' : p' = p
    · subst hp'
      simp [Owns, setPromise_self, hp]
    · rw [Owns, setPromise_of_ne hp']
      rfl
  have hframe (f : Frame) (hf : f ∈ s.running) : f.core ≠ c := by
    rintro rfl
    rw [(h.gave f hf).2] at hret
    cases hret
  refine ⟨?_, ⟨fun p' hp' => ?_, fun p' c' hown => ?_, fun c' hc' => ?_, fun p₁ p₂ c' h₁ h₂ => ?_,
    fun p' q' c' hq' hc' => ?_, fun c' hr hun => ?_⟩, ?_, fun f hf => ?_, fun f hf hcaller => ?_,
    h.defined⟩
  · exact forall_setCore (P := fun _ k' => k'.Inv broken) ((h.core c).retrieve hret)
      fun c' _ => h.core c'
  · have hnone := h.owners.alive_lt p' hp'
    have hne : p' ≠ p := by
      rintro rfl
      rw [hp] at hnone
      cases hnone
    rw [setPromise_of_ne hne]
    exact hnone
  · exact h.owners.core_lt p' c' ((howns p' c').mp hown)
  · have hlt := h.owners.core_lt p c ⟨q, hp, hc⟩
    have hle : s.numCores ≤ c' := hc'
    exact (congrArg Core.retrieved (hother (by omega))).trans (h.owners.fresh c' hle)
  · exact h.owners.unique p₁ p₂ c' ((howns p₁ c').mp h₁) ((howns p₂ c').mp h₂)
  · by_cases hp' : p' = p
    · subst hp'
      rw [setPromise_self] at hq'
      cases hq'
      rw [hc] at hc'
      cases hc'
      exact (congrArg Core.retrieved hself).symm
    · rw [setPromise_of_ne hp'] at hq'
      have hne : c' ≠ c := by
        rintro rfl
        exact hp' (h.owners.unique p' p c' ⟨q', hq', hc'⟩ ⟨q, hp, hc⟩)
      exact (h.owners.retrieved p' q' c' hq' hc').trans (congrArg Core.retrieved (hother hne)).symm
  · by_cases hcc : c' = c
    · subst hcc
      exact ⟨p, (howns p c').mpr ⟨q, hp, hc⟩⟩
    · obtain ⟨p', hown⟩ := h.owners.owned c' ((congrArg Core.retrieved (hother hcc)).symm.trans hr)
        (hother hcc ▸ hun)
      exact ⟨p', (howns p' c').mpr hown⟩
  · have hcalls := h.calls.setCore (c := c)
      (k := { s.cores c with retrieved := true, futureValid := true }) fun cb hcb => hcb
    exact ⟨hcalls.waiting, hcalls.unique, hcalls.called_lt, hcalls.nodup⟩
  · have := h.gave f hf
    rw [← hother (hframe f hf)] at this
    exact this
  · have := h.ended f hf hcaller
    rw [← hother (hframe f hf)] at this
    exact this

theorem runAndComplete_promises {caller : Caller} :
    (s.runAndComplete c caller).promises = s.promises := by
  rw [State.runAndComplete]
  split <;> rfl

theorem runAndComplete_cores {cb : ℕ} (caller : Caller) (hcb : (s.cores c).callback = some cb) :
    (s.runAndComplete c caller).cores c = (s.cores c).consumed := by
  simp only [State.runAndComplete, hcb]
  exact setCore_self

theorem coreSetTry_promises {t : τ} {w : Option τ} {caller : Caller} :
    (s.coreSetTry c t w caller).promises = s.promises := by
  simp only [State.coreSetTry]
  split_ifs
  · rfl
  · exact runAndComplete_promises

theorem coreSetTry_setPromise {t : τ} {w : Option τ} {caller : Caller} :
    (s.setPromise p r).coreSetTry c t w caller = (s.coreSetTry c t w caller).setPromise p r := by
  have hcores : (s.setPromise p r).cores = s.cores := rfl
  simp only [State.coreSetTry, hcores]
  split_ifs
  · rfl
  · have hcb : ((s.setPromise p r).setCore c
        { s.cores c with result := some t, wasSet := w }).cores =
        (s.setCore c { s.cores c with result := some t, wasSet := w }).cores := rfl
    simp only [State.runAndComplete, hcb]
    split <;> rfl

/-- A promise gives the core what it owes, and is in its debt no longer. -/
theorem Inv.coreSetTry (h : Inv broken s) (hun : (s.cores c).Unsatisfied) {t : τ} {w : Option τ}
    (hw : w = some t ∨ w = none ∧ t = broken) (caller : Caller) :
    Inv broken (s.coreSetTry c t w caller) ∧
      ¬((s.coreSetTry c t w caller).cores c).Unsatisfied := by
  by_cases hstate : (s.cores c).state = .empty
  · have hk := (h.core c).deposit (t := t) (w := w) hw
    have hnone : (s.cores c).delivered = [] := ((h.core c).pending hun).2.1
    have heq : s.coreSetTry c t w caller =
        s.setCore c { s.cores c with result := some t, wasSet := w, state := .hasResult } := by
      simp only [State.coreSetTry, if_pos hstate]
    rw [heq, setCore_self]
    refine ⟨h.setCore hk rfl ?_ ?_ id fun cb hcb => hcb, ?_⟩
    · intro hun'
      rcases hun' with hs | ⟨hs, -⟩ <;> cases hs
    · rintro ⟨t', ht', -⟩
      rw [hnone] at ht'
      cases ht'
    · rintro (hs | ⟨hs, -⟩) <;> cases hs
  · obtain ⟨hk, hgave, hret, hvalid⟩ := (h.core c).answer hun hstate hw
    obtain ⟨cb, hcb⟩ := Option.ne_none_iff_exists'.mp (hun.resolve_left hstate).2
    have heq : s.coreSetTry c t w caller =
        (s.setCore c { s.cores c with result := some t, wasSet := w }).runAndComplete c caller := by
      simp only [State.coreSetTry, if_neg hstate]
    have hcalls := h.calls.setCore (c := c)
      (k := { s.cores c with result := some t, wasSet := w }) fun cb hcb => hcb
    rw [heq]
    refine ⟨h.call (n := s.numCallbacks) hcalls hcb rfl hk hgave hret (fun hv => hv)
      (fun _ => hvalid), ?_⟩
    have hcb' : ((s.setCore c { s.cores c with result := some t, wasSet := w }).cores c).callback =
        some cb := by
      rw [setCore_self]
      exact hcb
    rw [runAndComplete_cores caller hcb', setCore_self]
    exact Core.not_unsatisfied_of_callback_none hstate rfl

/-- The consumer installs a callback. -/
theorem Inv.coreSetCallback (h : Inv broken s) (hvalid : (s.cores c).futureValid = true) :
    Inv broken (s.coreSetCallback c) := by
  by_cases hstate : (s.cores c).state = .empty
  · have hk := (h.core c).installFirst hvalid hstate s.numCallbacks
    have heq : s.coreSetCallback c = { s with numCallbacks := s.numCallbacks + 1 }.setCore c
        { s.cores c with
          callback := some s.numCallbacks, state := .hasCallback, futureValid := false } := by
      simp only [State.coreSetCallback, if_pos hstate]
    have howners := h.owners.setCore (c := c) (k := { s.cores c with
      callback := some s.numCallbacks, state := .hasCallback, futureValid := false }) rfl
      (fun _ => .inl hstate)
    rw [heq]
    exact ⟨forall_setCore (P := fun _ k' => k'.Inv broken) hk fun c' _ => h.core c',
      ⟨howners.alive_lt, howners.core_lt, howners.fresh, howners.unique, howners.retrieved,
        howners.owned⟩, h.calls.install rfl, h.gave_setCore rfl (fun hg => hg),
      h.ended_setCore (fun _ => rfl), h.defined⟩
  · obtain ⟨hk, hgave, hret⟩ := (h.core c).take hvalid hstate (s.cores c).futureValid
    have heq : s.coreSetCallback c = ({ s with numCallbacks := s.numCallbacks + 1 }.setCore c
        { s.cores c with callback := some s.numCallbacks }).runAndComplete c .consumer := by
      simp only [State.coreSetCallback, if_neg hstate]
    rw [heq]
    exact h.call (h.calls.install rfl) rfl rfl hk hgave hret (fun hv => hv)
      (fun hne => absurd rfl hne)

/-- The consumer gets the result without a callback. -/
theorem Inv.getTry (h : Inv broken s) (hvalid : (s.cores c).futureValid = true)
    (hready : (s.cores c).ready = true) :
    Inv broken (s.setCore c { (s.cores c).consumed with futureValid := false }) := by
  have hstate : (s.cores c).state ≠ .empty := by
    intro hs
    rw [Core.ready, hs] at hready
    cases hready
  obtain ⟨hk, hgave, -⟩ := (h.core c).take hvalid hstate false
  refine h.setCore hk rfl (fun hun => ?_) (fun _ => hgave) (fun _ => rfl)
    (fun cb hcb => by cases hcb)
  exact absurd hun (Core.not_unsatisfied_of_callback_none hstate rfl)

/-- The core of a callback that has returned. -/
theorem Inv.finish (h : Inv broken s) {f : Frame} (hf : f ∈ s.running) :
    Inv broken (s.setCore f.core { s.cores f.core with state := .done, futureValid := false }) := by
  obtain ⟨hgave, hret⟩ := h.gave f hf
  refine h.setCore (Core.Inv.finish hgave hret) rfl (fun hun => ?_) (fun hg => hg) (fun _ => rfl)
    (fun cb hcb => hcb)
  rcases hun with hs | ⟨hs, -⟩ <;> cases hs

/-- A callback leaves. -/
theorem Inv.leave (h : Inv broken s) (i : ℕ) (terminated : Bool) :
    Inv broken { s with running := s.running.eraseIdx i, terminated := terminated } :=
  ⟨h.core, ⟨h.owners.alive_lt, h.owners.core_lt, h.owners.fresh, h.owners.unique,
    h.owners.retrieved, h.owners.owned⟩, ⟨h.calls.waiting, h.calls.unique, h.calls.called_lt,
    h.calls.nodup⟩, fun f hf => h.gave f (List.mem_of_mem_eraseIdx hf),
    fun f hf => h.ended f (List.mem_of_mem_eraseIdx hf), h.defined⟩

theorem Inv.release (h : Inv broken s) (hr : ∀ q ∈ r, q.core = none)
    (hdead : s.promises p = none → r = none) (hdebt : ¬InDebt s p) :
    Inv broken (s.setPromise p r) :=
  h.withPromises (h.owners.release hr hdead hdebt)

/-- A promise whose core is satisfied is in no debt. -/
theorem not_inDebt (hp : s.promises p = some q)
    (hc : ∀ c, q.core = some c → ¬(s.cores c).Unsatisfied) : ¬InDebt s p := by
  rintro ⟨c, ⟨q', hq', hc'⟩, -, hun⟩
  rw [hp] at hq'
  cases hq'
  exact hc c hc' hun

/-- The care that a user of promises has to take. A promise in debt is not overwritten, also not
    when the call that is running a callback for it lets go of what the callback has moved into it;
    and a promise whose core's callback was called is neither set again nor destroyed. -/
def Careful (s : State τ) : Action τ → Prop
  | .moveAssign dst src => dst = src ∨ ¬InDebt s dst
  | .setTry p _ => ∀ c, Owns s p c → (s.cores c).Unsatisfied
  | .destroy p => ∀ c, Owns s p c → (s.cores c).ready = false → (s.cores c).Unsatisfied
  | .callbackReturns i => ∀ f p, s.running[i]? = some f → f.caller = .set p → ¬InDebt s p
  | _ => True

/-- A property of the core that a promise owns. -/
def forOwned (s : State τ) (p : ℕ) (P : Core τ → Bool) : Bool :=
  match s.promises p with
  | none => true
  | some q =>
    match q.core with
    | none => true
    | some c => P (s.cores c)

theorem forOwned_iff {P : Core τ → Bool} :
    forOwned s p P = true ↔ ∀ c, Owns s p c → P (s.cores c) = true := by
  rw [forOwned]
  constructor
  · rintro h c ⟨q, hq, hc⟩
    simpa only [hq, hc] using h
  · intro h
    cases hp : s.promises p with
    | none => rfl
    | some q =>
      cases hc : q.core with
      | none => simp only [hc]
      | some c => simpa only [hc] using h c ⟨q, hp, hc⟩

theorem not_inDebt_iff : ¬InDebt s p ↔
    forOwned s p (fun k => !(k.retrieved && decide k.Unsatisfied)) = true := by
  rw [forOwned_iff, InDebt]
  push Not
  refine forall₂_congr fun c _ => ?_
  cases (s.cores c).retrieved <;> simp

instance : Decidable (InDebt s p) :=
  decidable_of_iff (¬_ = true) (not_iff_comm.mpr not_inDebt_iff)

instance (a : Action τ) : Decidable (Careful s a) :=
  match a with
  | .moveAssign dst src => inferInstanceAs (Decidable (dst = src ∨ ¬InDebt s dst))
  | .setTry p _ =>
    decidable_of_iff (forOwned s p (fun k => decide k.Unsatisfied) = true)
      (forOwned_iff.trans (by simp [Careful]))
  | .destroy p =>
    decidable_of_iff (forOwned s p (fun k => k.ready || decide k.Unsatisfied) = true)
      (forOwned_iff.trans (by simp [Careful, Decidable.or_iff_not_imp_left]))
  | .callbackReturns i =>
    match hi : s.running[i]? with
    | none => .isTrue fun f p hf => nomatch hi.symm.trans hf
    | some f =>
      match hf : f.caller with
      | .set p =>
        decidable_of_iff (¬InDebt s p) ⟨fun h f' p' hf' hp' => by
          rw [hi] at hf'
          cases hf'
          rw [hf] at hp'
          cases hp'
          exact h, fun h => h f p hi hf⟩
      | .destructor => .isTrue fun f' p' hf' hp' => by
        rw [hi] at hf'
        cases hf'
        rw [hf] at hp'
        cases hp'
      | .consumer => .isTrue fun f' p' hf' hp' => by
        rw [hi] at hf'
        cases hf'
        rw [hf] at hp'
        cases hp'
  | .newPromise => .isTrue trivial
  | .moveConstruct _ => .isTrue trivial
  | .getSemiFuture _ => .isTrue trivial
  | .installCallback _ => .isTrue trivial
  | .getTry _ => .isTrue trivial
  | .callbackThrows _ => .isTrue trivial

/-- **Every careful step keeps the invariant.** -/
theorem Inv.step {s' : State τ} {a : Action τ} (h : Inv broken s) (hok : Careful s a)
    (hstep : Promises.step broken s a = some s') : Inv broken s' := by
  have hgo : (s.undefinedCall || s.terminated) = false := by
    by_contra hstop
    rw [Bool.not_eq_false] at hstop
    simp only [Promises.step, hstop, if_true] at hstep
    cases hstep
  simp only [Promises.step, hgo, Bool.false_eq_true, if_false] at hstep
  cases a with
  | newPromise =>
    cases hstep
    exact h.newPromise
  | moveConstruct src =>
    obtain ⟨q, hq, rfl⟩ := Option.map_eq_some_iff.mp hstep
    have hnone := h.owners.alive_lt s.numPromises le_rfl
    have hne : s.numPromises ≠ src := by
      rintro rfl
      rw [hnone] at hq
      cases hq
    have hdebt : ¬InDebt s s.numPromises := by
      rintro ⟨c, ⟨q', hq', -⟩, -⟩
      rw [hnone] at hq'
      cases hq'
    exact h.withPromises (h.owners.move hq hne hdebt (Nat.le_succ _) (Nat.lt_succ_self _))
  | moveAssign dst src =>
    obtain ⟨d, hd, hstep⟩ := Option.bind_eq_some_iff.mp hstep
    obtain ⟨q, hq, rfl⟩ := Option.map_eq_some_iff.mp hstep
    split_ifs with heq
    · exact h
    · have hlt : dst < s.numPromises := by
        by_contra hge
        rw [h.owners.alive_lt dst (not_lt.mp hge)] at hd
        cases hd
      exact h.withPromises (h.owners.move hq heq (hok.resolve_left heq) le_rfl hlt)
  | getSemiFuture p =>
    obtain ⟨q, hq, rfl⟩ := Option.map_eq_some_iff.mp hstep
    split_ifs with hret
    · exact h
    · split
      · exact h
      · rename_i c hc
        exact h.retrieve hq (by simpa using hret) hc
  | setTry p t =>
    obtain ⟨q, hq, rfl⟩ := Option.map_eq_some_iff.mp hstep
    split
    · exact h
    · rename_i c hc
      have hun := hok c ⟨q, hq, hc⟩
      have hw : ((s.cores c).wasSet <|> some t) = some t := by
        rw [((h.core c).pending hun).2.2]
        rfl
      obtain ⟨hinv, hdone⟩ := h.coreSetTry hun (t := t) (.inl hw) (.set p)
      split_ifs with hstate
      · refine hinv.release ?_ ?_ (not_inDebt (coreSetTry_promises ▸ hq) fun c' hc' => ?_)
        · rintro q' hq'
          cases hq'
          rfl
        · rw [coreSetTry_promises, hq]
          exact fun hnone => by cases hnone
        · rw [hc] at hc'
          cases hc'
          exact hdone
      · exact hinv
  | destroy p =>
    simp only at hstep
    split_ifs at hstep with hbusy
    obtain ⟨q, hq, rfl⟩ := Option.map_eq_some_iff.mp hstep
    split
    · rename_i hnone
      refine h.release (fun q' hq' => by cases hq') (fun _ => rfl) (not_inDebt hq fun c hc => ?_)
      rw [hnone] at hc
      cases hc
    · rename_i c hc
      split_ifs with hready
      · refine h.release (fun q' hq' => by cases hq') (fun _ => rfl)
          (not_inDebt hq fun c' hc' hun => ?_)
        rw [hc] at hc'
        cases hc'
        exact Core.not_unsatisfied_of_ready hready hun
      · have hun := hok c ⟨q, hq, hc⟩ (by simpa using hready)
        have hw : (s.cores c).wasSet = none := ((h.core c).pending hun).2.2
        obtain ⟨hinv, hdone⟩ := h.coreSetTry hun (t := broken) (.inr ⟨hw, rfl⟩) .destructor
        rw [coreSetTry_setPromise]
        refine hinv.release (fun q' hq' => by cases hq') (fun _ => rfl)
          (not_inDebt (coreSetTry_promises ▸ hq) fun c' hc' => ?_)
        rw [hc] at hc'
        cases hc'
        exact hdone
  | installCallback c =>
    simp only at hstep
    split_ifs at hstep with hvalid
    cases hstep
    exact h.coreSetCallback hvalid
  | getTry c =>
    simp only at hstep
    split_ifs at hstep with hvalid
    cases hstep
    rw [Bool.and_eq_true] at hvalid
    exact h.getTry hvalid.1 hvalid.2
  | callbackReturns i =>
    obtain ⟨f, hf, rfl⟩ := Option.map_eq_some_iff.mp hstep
    have hmem : f ∈ s.running := List.mem_of_getElem? hf
    have hfinish := (h.finish hmem).leave i s.terminated
    have hsame (hcaller : f.caller ≠ .consumer) :
        ({ s.cores f.core with state := .done } : Core τ) =
          { s.cores f.core with state := .done, futureValid := false } := by
      rw [← h.ended f hmem hcaller]
    cases hcaller : f.caller with
    | destructor =>
      rw [hsame (by rw [hcaller]; simp)]
      exact hfinish
    | consumer =>
      have heq : (s.setCore f.core { s.cores f.core with state := .done }).setCore f.core
          { s.cores f.core with state := .done, futureValid := false } =
          s.setCore f.core { s.cores f.core with state := .done, futureValid := false } := by
        simp only [State.setCore, Function.update_idem]
      have hself := setCore_self (s := s) (c := f.core)
        (k := { s.cores f.core with state := .done })
      rw [← heq] at hfinish
      simp only [hself]
      exact hfinish
    | set p =>
      rw [hsame (by rw [hcaller]; simp)]
      have hdebt : ¬InDebt s p := hok f p hf hcaller
      refine hfinish.release ?_ ?_ ?_
      · rintro q' hq'
        obtain ⟨q, -, rfl⟩ := Option.map_eq_some_iff.mp hq'
        rfl
      · intro hnone
        have hnone : s.promises p = none := hnone
        rw [hnone]
        rfl
      · rintro ⟨c, hown, hret, hun⟩
        by_cases hc : c = f.core
        · subst hc
          rcases setCore_self (s := s) (c := f.core) ▸ hun with hs | ⟨hs, -⟩ <;> cases hs
        · have hother := setCore_of_ne (s := s)
            (k := { s.cores f.core with state := .done, futureValid := false }) hc
          exact hdebt ⟨c, hown, (congrArg Core.retrieved hother).symm.trans hret, hother ▸ hun⟩
  | callbackThrows i =>
    obtain ⟨f, hf, rfl⟩ := Option.map_eq_some_iff.mp hstep
    exact h.leave i _

/-! ## Runs -/

/-- What promises are for: a core whose future was retrieved and that no promise owns holds its
    result or has given it to the consumer, no callback was called twice, and none after it had been
    moved away. -/
structure Kept (broken : τ) (s : State τ) : Prop where
  served : ∀ c, (s.cores c).retrieved = true → (∀ p, ¬Owns s p c) → (s.cores c).Served broken
  once : ∀ cb, s.called.count cb ≤ 1
  defined : s.undefinedCall = false

theorem Inv.kept (h : Inv broken s) : Kept broken s where
  served c hret hnone := by
    refine (h.core c).served fun hun => ?_
    obtain ⟨p, hown⟩ := h.owners.owned c hret hun
    exact hnone p hown
  once cb := List.nodup_iff_count_le_one.mp h.calls.nodup cb
  defined := h.defined

/-- **No future is forgotten.** In every run in which every step takes care, whatever the callbacks
    do and whether they return or throw, all that was said of promises holds in the state that is
    reached. -/
theorem promise_never_forgotten (broken : τ) (as : List (Action τ)) (s : State τ)
    (hcare : Meets (step broken) Careful State.start as)
    (h : run (step broken) State.start as = some s) : Kept broken s :=
  (hcare.run_invariant (fun _ _ _ hinv hok hstep => Inv.step hinv hok hstep) Inv.start h).kept

/-- A promise is overwritten before it is satisfied. -/
def overwritten : List (Action ℕ) := [.newPromise, .getSemiFuture 0, .newPromise, .moveAssign 0 1]

/-- A callback throws, and its promise is destroyed. -/
def destroyedAfterThrow : List (Action ℕ) :=
  [.newPromise, .getSemiFuture 0, .installCallback 0, .setTry 0 5, .callbackThrows 0, .destroy 0]

/-- The future of an overwritten promise waits for ever, and the destruction of a promise whose
    callback has thrown calls an emptied callback. -/
theorem promise_forgotten :
    (∃ s, run (step 0) State.start overwritten = some s ∧ ¬Kept 0 s) ∧
      ∃ s, run (step 0) State.start destroyedAfterThrow = some s ∧ ¬Kept 0 s := by
  refine ⟨⟨_, rfl, fun h => ?_⟩, ⟨_, rfl, fun h => nomatch h.defined⟩⟩
  have hserved := h.served 0 rfl fun p ⟨q, hq, hc⟩ => by
    match p with
    | 0 =>
      cases hq
      cases hc
    | 1 =>
      cases hq
      cases hc
    | p + 2 => cases hq
  rcases hserved with ⟨t, hs, -⟩ | ⟨t, ht, -⟩
  · cases hs
  · cases ht

/-- `then_try` on the future of a promise, which is then set; the `enqueue` of the callback throws,
    so that its task is destroyed with the promise in it. -/
def enqueueThrows : List (Action ℕ) :=
  [.newPromise, .getSemiFuture 0, .newPromise, .getSemiFuture 1, .installCallback 0, .setTry 0 5,
    .moveConstruct 1, .destroy 2, .callbackThrows 0, .destroy 1]

theorem promise_never_forgotten_enqueueThrows :
    ∃ s, run (step 0) State.start enqueueThrows = some s ∧ Kept 0 s ∧
      (s.cores 1).state = .hasResult ∧ (s.cores 1).result = some 0 := by
  exact ⟨_, rfl, promise_never_forgotten 0 enqueueThrows _ (by decide) rfl, rfl, rfl⟩

end Sirius.Exec.Promises
