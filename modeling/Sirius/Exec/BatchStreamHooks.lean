import Sirius.Common.Trace
import Sirius.Exec.BatchStream

/-!
# The end-of-stream hook

Model of `set_on_end_of_stream`, and of what `close` and `fail` do with the hook
(src/exec/batch_stream.cpp:55-99, 140-149), over the streams of `BatchStream`. A call is one
critical section, and the invocation of the hook that it took out of the stream, if any, is a
step of its own behind it. A hook may call the stream: such a call is a step like any other.

The calls of `set_on_end_of_stream` are numbered, and a hook is known by the number of its call.

* `Hooked.close`, `Hooked.fail`, `Hooked.setOnEndOfStream`: the critical sections.
* `Replaced`: a later hook was set before the stream was terminal.
* `end_of_stream_hook`: every other hook is invoked once, over every run.
-/

namespace Sirius.Exec.BatchStream

open Sirius.Common

variable {B E : Type}

/-- A stream with its hook, the number of calls that set one, the hooks that a call has taken
    and not invoked yet, and the ones that were invoked. -/
structure Hooked (B E : Type) where
  stream : Stream B E
  onEndOfStream : Option ℕ := none
  installs : ℕ := 0
  firing : List ℕ := []
  invoked : List ℕ := []

namespace Hooked

variable (s : Hooked B E)

/-- `eos_hook = std::move(_on_end_of_stream)`. What is left behind is not looked at again. -/
def takeHook : Hooked B E :=
  { s with onEndOfStream := none, firing := s.firing ++ s.onEndOfStream.toList }

/-- `close` (lines 55–75). -/
def close (sender : SenderId) : Hooked B E :=
  if sender ∉ s.stream.expected then { s with stream := s.stream.log (.closeRejected sender) }
  else
    let closed := insert sender s.stream.closed
    if s.stream.terminal = true ∨ closed.card < s.stream.expected.card then
      { s with stream := { s.stream with closed := closed }.log (.closed sender) }
    else
      { s.takeHook with
        stream := { s.stream with closed := closed, terminal := true }.log (.closed sender) }

/-- `fail` (lines 77–99), on a stream without a data hook. -/
def fail : Option E → Hooked B E
  | none => { s with stream := s.stream.log .failRejected }
  | some error =>
    match s.stream.error with
    | some _ => { s with stream := s.stream.log (.failed error) }
    | none =>
      if s.stream.terminal = true then
        { s with stream := { s.stream with error := some error }.log (.failed error) }
      else
        { s.takeHook with
          stream := { s.stream with error := some error, terminal := true }.log (.failed error) }

/-- `set_on_end_of_stream` (lines 140–149), with an empty function if not `armed`. -/
def setOnEndOfStream (armed : Bool) : Hooked B E :=
  let hook := if armed then some s.installs else none
  { s with
    onEndOfStream := hook
    installs := s.installs + 1
    firing := if s.stream.terminal then s.firing ++ hook.toList else s.firing }

/-- The invocation behind the critical section of a call. -/
def invoke (i : ℕ) : Option (Hooked B E) :=
  s.firing[i]?.map fun k =>
    { s with firing := s.firing.eraseIdx i, invoked := s.invoked ++ [k] }

/-- The stream under the hook is the one of `BatchStream`. -/
theorem stream_close (sender : SenderId) : (s.close sender).stream = s.stream.close sender := by
  simp only [close, Stream.close]
  split_ifs with hexpected hreturn
  · rcases hreturn with hterminal | hlt
    · simp [hterminal]
    · simp [hlt]
  · rw [not_or] at hreturn
    simp [hreturn.2]
  · rfl

theorem stream_fail (error : Option E) : (s.fail error).stream = s.stream.fail error := by
  cases error with
  | none => rfl
  | some error =>
    rw [fail, Stream.fail]
    cases s.stream.error with
    | some _ => rfl
    | none =>
      dsimp only
      split_ifs with hterminal
      · simp [hterminal]
      · rfl

end Hooked

/-- A call of `set_on_end_of_stream`, the invocation of the `i`-th hook that is about to be, or
    an operation of the stream. -/
inductive HookAct (B E : Type) where
  | set (armed : Bool)
  | invoke (i : ℕ)
  | stream (a : Act B E)
  deriving DecidableEq, Repr

def hookStep (s : Hooked B E) : HookAct B E → Option (Hooked B E)
  | .set armed => some (s.setOnEndOfStream armed)
  | .invoke i => s.invoke i
  | .stream (.close sender) => some (s.close sender)
  | .stream (.fail error) => some (s.fail error)
  | .stream a => (step s.stream a).map fun stream => { s with stream := stream }

def createHooked (expected : Finset SenderId) : Hooked B E := { stream := create expected }

/-! ## What a step does to the hooks -/

/-- The hooks after a step: as they were, taken because the stream ends here, set before or after
    the end, or invoked. -/
inductive HookStep (s s' : Hooked B E) : HookAct B E → Prop
  | idle (a : Act B E) (hterminal : s'.stream.terminal = s.stream.terminal)
      (hhook : s'.onEndOfStream = s.onEndOfStream) (hinstalls : s'.installs = s.installs)
      (hfiring : s'.firing = s.firing) (hinvoked : s'.invoked = s.invoked) :
      HookStep s s' (.stream a)
  | ends (a : Act B E) (hbefore : s.stream.terminal = false) (hafter : s'.stream.terminal = true)
      (hinstalls : s'.installs = s.installs)
      (hfiring : s'.firing = s.firing ++ s.onEndOfStream.toList)
      (hinvoked : s'.invoked = s.invoked) : HookStep s s' (.stream a)
  | set (armed : Bool) (heq : s' = s.setOnEndOfStream armed) : HookStep s s' (.set armed)
  | invoke (i k : ℕ) (hk : s.firing[i]? = some k)
      (heq : s' = { s with firing := s.firing.eraseIdx i, invoked := s.invoked ++ [k] }) :
      HookStep s s' (.invoke i)

theorem hookStep_close (s : Hooked B E) (sender : SenderId) :
    HookStep s (s.close sender) (.stream (.close sender)) := by
  simp only [Hooked.close]
  split_ifs with hexpected hreturn
  · exact .idle _ rfl rfl rfl rfl rfl
  · rw [not_or, Bool.not_eq_true] at hreturn
    exact .ends _ hreturn.1 rfl rfl rfl rfl
  · exact .idle _ rfl rfl rfl rfl rfl

theorem hookStep_fail (s : Hooked B E) (error : Option E) :
    HookStep s (s.fail error) (.stream (.fail error)) := by
  cases error with
  | none => exact .idle _ rfl rfl rfl rfl rfl
  | some error =>
    rw [Hooked.fail]
    cases s.stream.error with
    | some _ => exact .idle _ rfl rfl rfl rfl rfl
    | none =>
      dsimp only
      split_ifs with hterminal
      · exact .idle _ rfl rfl rfl rfl rfl
      · exact .ends _ (by simpa using hterminal) rfl rfl rfl rfl

/-- The other operations do not end the stream. -/
theorem terminal_step {s s' : Stream B E} {a : Act B E} (h : step s a = some s')
    (hclose : ∀ sender, a ≠ .close sender) (hfail : ∀ error, a ≠ .fail error) :
    s'.terminal = s.terminal := by
  cases a with
  | push batch =>
    cases h
    rw [Stream.push]
    split_ifs <;> rfl
  | close sender => exact absurd rfl (hclose sender)
  | fail error => exact absurd rfl (hfail error)
  | tryPull c =>
    cases h
    rw [Stream.tryPull]
    split <;> rfl
  | pop c i =>
    rw [step, Stream.pop] at h
    split_ifs at h with hpopping hnil
    · cases h
      rfl
    · obtain ⟨batch, -, rfl⟩ := Option.map_eq_some_iff.mp h
      rfl
  | classify =>
    cases h
    rfl
  | drained =>
    cases h
    rfl

theorem hookStep_other {s : Hooked B E} {a : Act B E} (hclose : ∀ sender, a ≠ .close sender)
    (hfail : ∀ error, a ≠ .fail error) :
    hookStep s (.stream a) = (step s.stream a).map fun stream => { s with stream := stream } := by
  cases a with
  | close sender => exact absurd rfl (hclose sender)
  | fail error => exact absurd rfl (hfail error)
  | _ => rfl

variable {a : HookAct B E}

theorem hookStep_cases {s s' : Hooked B E} (h : hookStep s a = some s') : HookStep s s' a := by
  cases a with
  | set armed =>
    cases h
    exact .set armed rfl
  | invoke i =>
    obtain ⟨k, hk, rfl⟩ := Option.map_eq_some_iff.mp h
    exact .invoke i k hk rfl
  | stream a =>
    cases a with
    | close sender =>
      cases h
      exact hookStep_close s sender
    | fail error =>
      cases h
      exact hookStep_fail s error
    | _ =>
      rw [hookStep_other (by simp) (by simp)] at h
      obtain ⟨stream, hstep, rfl⟩ := Option.map_eq_some_iff.mp h
      exact .idle _ (terminal_step hstep (by simp) (by simp)) rfl rfl rfl rfl

/-! ## The trace -/

/-- The calls of `set_on_end_of_stream`, and whether they set a hook. -/
def installed (as : List (HookAct B E)) : List Bool :=
  as.filterMap fun
    | .set armed => some armed
    | _ => none

/-- Hook `k` was replaced before the stream was terminal. -/
def Replaced (expected : Finset SenderId) (as : List (HookAct B E)) (k : ℕ) : Prop :=
  ∃ (front : List (HookAct B E)) (armed : Bool) (back : List (HookAct B E)) (s : Hooked B E),
    as = front ++ HookAct.set armed :: back ∧ k < (installed front).length ∧
      run hookStep (createHooked expected) front = some s ∧ s.stream.terminal = false

variable {expected : Finset SenderId} {as : List (HookAct B E)} {s s' : Hooked B E} {k : ℕ}

theorem installed_concat_set (armed : Bool) :
    installed (as ++ [HookAct.set armed]) = installed as ++ [armed] := by
  simp [installed, List.filterMap_append]

theorem installed_concat (ha : ∀ armed, a ≠ .set armed) : installed (as ++ [a]) = installed as := by
  rw [installed, installed, List.filterMap_append]
  cases a with
  | set armed => exact absurd rfl (ha armed)
  | _ => simp

theorem Replaced.lt (h : Replaced expected as k) : k + 1 < (installed as).length := by
  obtain ⟨front, armed, back, s, rfl, hk, -, -⟩ := h
  simp only [installed, List.filterMap_append, List.filterMap_cons, List.length_append,
    List.length_cons] at hk ⊢
  omega

/-- Only a call that sets a hook on a stream that is not terminal replaces one. -/
theorem replaced_concat (hrun : run hookStep (createHooked expected) as = some s) :
    Replaced expected (as ++ [a]) k ↔
      Replaced expected as k ∨
        ((∃ armed, a = .set armed) ∧ k < (installed as).length ∧ s.stream.terminal = false) := by
  constructor
  · rintro ⟨front, armed, back, s₁, heq, hk, hrun₁, hterminal⟩
    rcases List.eq_nil_or_concat back with rfl | ⟨back, b, rfl⟩
    · obtain ⟨rfl, hlast⟩ := List.append_inj' heq rfl
      rw [hrun] at hrun₁
      cases hrun₁
      cases hlast
      exact .inr ⟨⟨armed, rfl⟩, hk, hterminal⟩
    · rw [List.concat_eq_append, ← List.cons_append, ← List.append_assoc] at heq
      obtain ⟨rfl, -⟩ := List.append_inj' heq rfl
      exact .inl ⟨front, armed, back, s₁, rfl, hk, hrun₁, hterminal⟩
  · rintro (⟨front, armed, back, s₁, rfl, hk, hrun₁, hterminal⟩ | ⟨⟨armed, rfl⟩, hk, hterminal⟩)
    · exact ⟨front, armed, back ++ [a], s₁, by simp, hk, hrun₁, hterminal⟩
    · exact ⟨as, armed, [], s, rfl, hk, hrun, hterminal⟩

/-! ## The invariant -/

/-- A hook is set, and no other one was set after it before the stream was terminal. -/
def Stays (expected : Finset SenderId) (as : List (HookAct B E)) (k : ℕ) : Prop :=
  (installed as)[k]? = some true ∧ ¬Replaced expected as k

/-- The hooks after a trace. -/
structure HookInv (expected : Finset SenderId) (as : List (HookAct B E)) (s : Hooked B E) :
    Prop where
  installs : s.installs = (installed as).length
  before : s.stream.terminal = false → s.firing = [] ∧ s.invoked = []
  current : s.stream.terminal = false → ∀ k, s.onEndOfStream = some k ↔ Stays expected as k
  replaced : s.stream.terminal = false →
    ∀ k, Replaced expected as k ↔ k + 1 < (installed as).length
  once : s.stream.terminal = true → ∀ k, Stays expected as k →
    s.firing.count k + s.invoked.count k = 1
  never : ∀ k, ¬Stays expected as k → s.firing.count k + s.invoked.count k = 0

theorem hookInv_create (expected : Finset SenderId) :
    HookInv expected [] (createHooked expected : Hooked B E) := by
  have hstays (k : ℕ) : ¬Stays expected ([] : List (HookAct B E)) k := fun h => nomatch h.1
  refine ⟨rfl, fun _ => ⟨rfl, rfl⟩, fun _ k => ?_, fun _ k => ?_, fun _ k hk => ?_, fun _ _ => rfl⟩
  · exact ⟨fun h => (nomatch h), fun h => absurd h (hstays k)⟩
  · exact ⟨Replaced.lt, fun h => nomatch h⟩
  · exact absurd hk (hstays k)

/-- A step that sets no hook leaves the same ones. -/
theorem stays_concat (hrun : run hookStep (createHooked expected) as = some s)
    (ha : ∀ armed, a ≠ .set armed) : Stays expected (as ++ [a]) k ↔ Stays expected as k := by
  rw [Stays, Stays, installed_concat ha, replaced_concat hrun]
  have hnot : ¬∃ armed, a = .set armed := fun ⟨armed, h⟩ => ha armed h
  tauto

/-- What a call of `set_on_end_of_stream` sets stays, and what was set before stays if the stream
    is terminal. -/
theorem stays_concat_set (hrun : run hookStep (createHooked expected) as = some s) (armed : Bool) :
    Stays expected (as ++ [HookAct.set armed]) k ↔
      (k = (installed as).length ∧ armed = true) ∨
        (Stays expected as k ∧ s.stream.terminal = true) := by
  rw [Stays, Stays, installed_concat_set, replaced_concat hrun, List.getElem?_append]
  have hset : ∃ armed', HookAct.set (B := B) (E := E) armed = .set armed' := ⟨armed, rfl⟩
  split_ifs with hlt
  · have hne : k ≠ (installed as).length := by omega
    rw [← Bool.not_eq_true]
    tauto
  · have hnone : (installed as)[k]? = none := List.getElem?_eq_none (by omega)
    have hnot : ¬Replaced expected as k := fun h => by
      have := h.lt
      omega
    rw [hnone, List.getElem?_singleton]
    by_cases hk : k = (installed as).length
    · rw [if_pos (by omega), Option.some.injEq]
      have : ¬k < (installed as).length := hlt
      tauto
    · rw [if_neg (by omega)]
      simp [hk]

/-- What holds after a trace holds after one more step. -/
theorem HookInv.step (h : HookInv expected as s)
    (hrun : run hookStep (createHooked expected) as = some s)
    (hs : hookStep s a = some s') : HookInv expected (as ++ [a]) s' := by
  cases hookStep_cases hs with
  | idle a hterminal hhook hinstalls hfiring hinvoked =>
    have hset : ∀ armed, HookAct.stream a ≠ .set armed := by simp
    refine ⟨?_, ?_, ?_, ?_, ?_, ?_⟩
    · rw [hinstalls, installed_concat hset, h.installs]
    · rw [hterminal, hfiring, hinvoked]
      exact h.before
    · rw [hterminal, hhook]
      intro hbefore k
      rw [stays_concat hrun hset]
      exact h.current hbefore k
    · rw [hterminal, installed_concat hset]
      intro hbefore k
      rw [replaced_concat hrun, ← h.replaced hbefore k]
      simp
    · rw [hterminal, hfiring, hinvoked]
      intro hafter k hk
      exact h.once hafter k ((stays_concat hrun hset).mp hk)
    · rw [hfiring, hinvoked]
      intro k hk
      exact h.never k fun hstays => hk ((stays_concat hrun hset).mpr hstays)
  | ends a hbefore hafter hinstalls hfiring hinvoked =>
    have hset : ∀ armed, HookAct.stream a ≠ .set armed := by simp
    obtain ⟨hnone, hnever⟩ := h.before hbefore
    have hcount (k : ℕ) : s'.firing.count k + s'.invoked.count k =
        s.onEndOfStream.toList.count k := by
      rw [hfiring, hinvoked, hnone, hnever]
      rfl
    refine ⟨?_, ?_, ?_, ?_, ?_, ?_⟩
    · rw [hinstalls, installed_concat hset, h.installs]
    · simp [hafter]
    · simp [hafter]
    · simp [hafter]
    · intro _ k hk
      rw [hcount, (h.current hbefore k).mpr ((stays_concat hrun hset).mp hk)]
      simp
    · intro k hk
      rw [hcount, List.count_eq_zero, Option.mem_toList]
      intro hmem
      exact hk ((stays_concat hrun hset).mpr ((h.current hbefore k).mp hmem))
  | set armed heq =>
    subst heq
    have hfresh (k : ℕ) (hk : (installed as).length ≤ k) :
        s.firing.count k + s.invoked.count k = 0 := by
      refine h.never k fun hstays => ?_
      rw [Stays, List.getElem?_eq_none hk] at hstays
      exact nomatch hstays.1
    have hhook : (if armed then some s.installs else none) =
        if armed then some (installed as).length else none := by rw [h.installs]
    have hnot {k : ℕ} (hk : armed = true → k ≠ (installed as).length) :
        (if armed then some (installed as).length else none).toList.count k = 0 := by
      rw [List.count_eq_zero, Option.mem_toList]
      cases armed with
      | false => simp
      | true => simpa [eq_comm] using hk rfl
    refine ⟨?_, ?_, ?_, ?_, ?_, ?_⟩
    · rw [installed_concat_set, List.length_append, Hooked.setOnEndOfStream, h.installs]
      rfl
    · intro hbefore
      rw [Hooked.setOnEndOfStream] at hbefore ⊢
      dsimp only at hbefore ⊢
      rw [hbefore]
      exact h.before hbefore
    · intro hbefore k
      rw [stays_concat_set hrun]
      rw [Hooked.setOnEndOfStream] at hbefore ⊢
      dsimp only at hbefore ⊢
      rw [hbefore, hhook]
      cases armed <;> simp [eq_comm]
    · intro hbefore k
      rw [Hooked.setOnEndOfStream] at hbefore
      dsimp only at hbefore
      rw [replaced_concat hrun, installed_concat_set, List.length_append, h.replaced hbefore k]
      simp only [List.length_singleton, HookAct.set.injEq, exists_eq', hbefore, and_true, true_and]
      omega
    · intro hafter k hk
      rw [stays_concat_set hrun] at hk
      rw [Hooked.setOnEndOfStream] at hafter ⊢
      dsimp only at hafter ⊢
      rw [hafter, hhook, if_pos rfl, List.count_append]
      rcases hk with ⟨rfl, rfl⟩ | ⟨hk, -⟩
      · have := hfresh _ le_rfl
        simp only [if_true, Option.toList_some, List.count_singleton_self]
        omega
      · have hlt : k < (installed as).length := by
          by_contra hge
          exact absurd (h.once hafter k hk) (by rw [hfresh k (by omega)]; omega)
        rw [hnot fun _ => hlt.ne]
        exact h.once hafter k hk
    · intro k hk
      rw [stays_concat_set hrun, not_or] at hk
      rw [Hooked.setOnEndOfStream]
      dsimp only
      by_cases hafter : s.stream.terminal = true
      · rw [hafter, hhook, if_pos rfl, List.count_append]
        have hold := h.never k fun hstays => hk.2 ⟨hstays, hafter⟩
        rw [hnot fun harmed heq => hk.1 ⟨heq, harmed⟩]
        exact hold
      · rw [if_neg hafter]
        obtain ⟨hnone, hnever⟩ := h.before (by simpa using hafter)
        rw [hnone, hnever]
        rfl
  | invoke i j hj heq =>
    subst heq
    have hset : ∀ armed, HookAct.invoke (B := B) (E := E) i ≠ .set armed := by simp
    have hcount (k : ℕ) : (s.firing.eraseIdx i).count k + (s.invoked ++ [j]).count k =
        s.firing.count k + s.invoked.count k := by
      obtain ⟨hi, hget⟩ := List.getElem?_eq_some_iff.mp hj
      have hfiring := (List.getElem_cons_eraseIdx_perm hi).count_eq k
      rw [hget] at hfiring
      rw [List.count_cons] at hfiring
      rw [List.count_append, List.count_singleton]
      omega
    have hbefore : s.stream.terminal ≠ false := by
      intro hbefore
      rw [(h.before hbefore).1] at hj
      cases hj
    refine ⟨?_, ?_, ?_, ?_, ?_, ?_⟩
    · rw [installed_concat hset]
      exact h.installs
    · exact fun hb => absurd hb hbefore
    · exact fun hb => absurd hb hbefore
    · exact fun hb => absurd hb hbefore
    · intro hafter k hk
      rw [hcount]
      exact h.once hafter k ((stays_concat hrun hset).mp hk)
    · intro k hk
      rw [hcount]
      exact h.never k fun hstays => hk ((stays_concat hrun hset).mpr hstays)

/-- **The end-of-stream hook**, over every interleaving of calls and invocations: no hook is
    invoked before the stream is terminal, and none twice; on a terminal stream a hook that was not
    replaced in time has been invoked once, or the call that will invoke it is about to, and has
    been when no call is left that is about to invoke one. -/
theorem end_of_stream_hook (expected : Finset SenderId) (as : List (HookAct B E))
    (s : Hooked B E) (h : run hookStep (createHooked expected) as = some s) :
    (s.stream.terminal = false → s.invoked = []) ∧
    (∀ k, s.invoked.count k ≤ 1) ∧
    ∀ k, (installed as)[k]? = some true → ¬Replaced expected as k → s.stream.terminal = true →
      (s.invoked.count k = 1 ∨ ∃ i s', s.firing[i]? = some k ∧ hookStep s (.invoke i) = some s') ∧
      (s.firing = [] → s.invoked.count k = 1) := by
  have hinv : HookInv expected as s :=
    run_trace_invariant (hookInv_create expected) (fun _ _ _ _ hrun h hs => h.step hrun hs) h
  refine ⟨fun hbefore => (hinv.before hbefore).2, fun k => ?_, fun k hk hreplaced hafter => ?_⟩
  · by_cases hstays : Stays expected as k
    · cases hterminal : s.stream.terminal with
      | true =>
        have := hinv.once hterminal k hstays
        omega
      | false =>
        rw [(hinv.before hterminal).2]
        exact Nat.zero_le _
    · have := hinv.never k hstays
      omega
  · have honce := hinv.once hafter k ⟨hk, hreplaced⟩
    refine ⟨?_, fun hnil => ?_⟩
    · by_cases hmem : k ∈ s.firing
      · obtain ⟨i, hi⟩ := List.mem_iff_getElem?.mp hmem
        exact .inr ⟨i, _, hi, by rw [hookStep, Hooked.invoke, hi, Option.map_some]⟩
      · rw [List.count_eq_zero.mpr hmem] at honce
        exact .inl (by omega)
    · rw [hnil, List.count_nil] at honce
      omega

/-- A hook is set, another one replaces it, the only sender closes, a producer fails and the hook
    is invoked. -/
def replacedHook : List (HookAct ℕ ℕ) :=
  [.set true, .set true, .stream (.close 0), .stream (.fail (some 3)), .invoke 0]

theorem end_of_stream_hook_replaced : ∃ s : Hooked ℕ ℕ,
    run hookStep (createHooked {0}) replacedHook = some s ∧ s.invoked.count 0 = 0 ∧
      s.invoked.count 1 = 1 :=
  ⟨_, rfl, rfl, ((end_of_stream_hook {0} replacedHook _ rfl).2.2 1 rfl
    (fun h => absurd h.lt (by decide)) rfl).2 rfl⟩

end Sirius.Exec.BatchStream
