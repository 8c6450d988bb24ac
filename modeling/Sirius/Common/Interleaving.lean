import Mathlib

/-!
# Interleaved tasks on a shared memory

A memory is a function from addresses to values. A task is a list of writes, and a
write replaces the value at one address by a function of that value. A schedule
merges the writes of several tasks in any order that keeps the order of each task.

* `exec_apply`: the value at an address depends on the writes to it only.
* `interleaves_sequential`: running the tasks one after the other is a schedule.
* `Interleaves.exec_eq`: where one task alone writes an address, every schedule
  leaves there what that task leaves when it runs alone.
-/

namespace Sirius.Common

variable {A V W : Type*} [DecidableEq A] (addr : W → A) (act : W → V → V)

/-- Run writes one after the other. -/
def exec (ws : List W) (m : A → V) : A → V :=
  ws.foldl (fun m w => Function.update m (addr w) (act w (m (addr w)))) m

variable {addr act}

@[simp] theorem exec_nil (m : A → V) : exec addr act [] m = m := rfl

theorem exec_cons (w : W) (ws : List W) (m : A → V) :
    exec addr act (w :: ws) m =
      exec addr act ws (Function.update m (addr w) (act w (m (addr w)))) := rfl

theorem exec_append (ws ws' : List W) (m : A → V) :
    exec addr act (ws ++ ws') m = exec addr act ws' (exec addr act ws m) :=
  List.foldl_append

theorem exec_apply (ws : List W) (m : A → V) (a : A) :
    exec addr act ws m a = (ws.filter fun w => addr w = a).foldl (fun v w => act w v) (m a) := by
  induction ws generalizing m with
  | nil => rfl
  | cons w ws ih =>
    rw [exec_cons, ih]
    by_cases hw : addr w = a
    · rw [List.filter_cons_of_pos (by simpa using hw), List.foldl_cons, hw, Function.update_self]
    · rw [List.filter_cons_of_neg (by simpa using hw), Function.update_of_ne (Ne.symm hw)]

/-- An address that is not written. -/
theorem exec_of_forall_ne {ws : List W} {m : A → V} {a : A} (h : ∀ w ∈ ws, addr w ≠ a) :
    exec addr act ws m a = m a := by
  rw [exec_apply, List.filter_eq_nil_iff.mpr fun w hw => by simpa using h w hw, List.foldl_nil]

/-- An address that is written once. -/
theorem exec_of_nodup {ws : List W} (hnodup : (ws.map addr).Nodup) {w : W} (hw : w ∈ ws)
    (m : A → V) : exec addr act ws m (addr w) = act w (m (addr w)) := by
  induction ws generalizing m with
  | nil => cases hw
  | cons x ws ih =>
    rw [List.map_cons, List.nodup_cons] at hnodup
    rw [exec_cons]
    rcases List.mem_cons.mp hw with rfl | hw
    · rw [exec_of_forall_ne, Function.update_self]
      exact fun y hy heq => hnodup.1 (List.mem_map.mpr ⟨y, hy, heq⟩)
    · have hne : addr w ≠ addr x := fun heq => hnodup.1 (List.mem_map.mpr ⟨w, hw, heq⟩)
      rw [ih hnodup.2 hw, Function.update_of_ne hne]

/-- An address where every write leaves one value. -/
theorem exec_of_forall_eq {ws : List W} {m : A → V} {a : A} {v : V}
    (h : ∀ w ∈ ws, addr w = a → ∀ old, act w old = v) (hmem : ∃ w ∈ ws, addr w = a) :
    exec addr act ws m a = v := by
  induction ws generalizing m with
  | nil =>
    obtain ⟨w, hw, -⟩ := hmem
    cases hw
  | cons w ws ih =>
    rw [exec_cons]
    by_cases hrest : ∃ w ∈ ws, addr w = a
    · exact ih (fun w' hw' => h w' (by simp [hw'])) hrest
    · push Not at hrest
      obtain ⟨w', hw', haddr⟩ := hmem
      obtain rfl : w' = w := by
        rcases List.mem_cons.mp hw' with hw' | hw'
        · exact hw'
        · exact absurd haddr (hrest w' hw')
      rw [exec_of_forall_ne hrest, ← haddr, Function.update_self]
      exact h w' (by simp) haddr _

/-- Writes to another memory, whose addresses hold those of the first. -/
theorem exec_map {B W' : Type*} [DecidableEq B] {addr' : W' → B} {act' : W' → V → V} {f : W → W'}
    {g : A → B} (hg : Function.Injective g) (haddr : ∀ w, addr' (f w) = g (addr w))
    (hact : ∀ w, act' (f w) = act w) (ws : List W) (m : B → V) (a : A) :
    exec addr' act' (ws.map f) m (g a) = exec addr act ws (fun a => m (g a)) a := by
  rw [exec_apply, exec_apply, List.filter_map, List.foldl_map]
  have hfilter : ((fun w' => decide (addr' w' = g a)) ∘ f) = fun w => decide (addr w = a) := by
    funext w
    simp only [Function.comp_apply, haddr, hg.eq_iff]
  rw [hfilter]
  simp only [hact]

/-- A schedule of tasks: the writes, each with the number of its task. -/
def Interleaves (tasks : List (List W)) (schedule : List (ℕ × W)) : Prop :=
  ∀ t, (schedule.filter fun e => e.1 = t).map Prod.snd = tasks.getD t []

/-- The tasks one after the other are a schedule. -/
theorem interleaves_sequential (tasks : List (List W)) :
    Interleaves tasks (tasks.zipIdx.flatMap fun e => e.1.map fun w => (e.2, w)) := by
  have hfrom : ∀ n t, (((tasks.zipIdx n).flatMap fun e => e.1.map fun w => (e.2, w)).filter
      fun e => e.1 = t).map Prod.snd = if n ≤ t then tasks.getD (t - n) [] else [] := by
    induction tasks with
    | nil => simp
    | cons task rest ih =>
      intro n t
      rw [List.zipIdx_cons, List.flatMap_cons, List.filter_append, List.map_append, ih]
      by_cases hnt : n = t
      · subst hnt
        have hhead : ((task.map fun w => (n, w)).filter fun e => e.1 = n).map Prod.snd = task := by
          rw [List.filter_map, List.map_map]
          simp
        rw [hhead, if_neg (by omega), if_pos le_rfl, List.append_nil, Nat.sub_self]
        rfl
      · have hhead : ((task.map fun w => (n, w)).filter fun e => e.1 = t).map Prod.snd = [] := by
          rw [List.filter_map]
          simp [hnt]
        rw [hhead, List.nil_append]
        by_cases hle : n + 1 ≤ t
        · rw [if_pos hle, if_pos (by omega), show t - n = t - (n + 1) + 1 by omega]
          rfl
        · rw [if_neg hle, if_neg (by omega)]
  intro t
  rw [hfrom 0 t, if_pos (Nat.zero_le t), Nat.sub_zero]

/-- An address that task `t` alone writes. -/
theorem Interleaves.exec_eq {tasks : List (List W)} {schedule : List (ℕ × W)} {a : A} {t : ℕ}
    (h : Interleaves tasks schedule)
    (hother : ∀ t' ≠ t, ∀ w ∈ tasks.getD t' [], addr w ≠ a) (m : A → V) :
    exec addr act (schedule.map Prod.snd) m a = exec addr act (tasks.getD t []) m a := by
  have hlabel : ∀ e ∈ schedule, addr e.2 = a → e.1 = t := by
    intro e he haddr
    by_contra hne
    have hmem : e.2 ∈ tasks.getD e.1 [] := by
      rw [← h e.1]
      exact List.mem_map.mpr ⟨e, List.mem_filter.mpr ⟨he, by simp⟩, rfl⟩
    exact hother e.1 hne e.2 hmem haddr
  have hfilter : (schedule.map Prod.snd).filter (fun w => addr w = a) =
      (tasks.getD t []).filter fun w => addr w = a := by
    rw [← h t, List.filter_map, List.filter_map, List.filter_filter]
    congr 1
    refine List.filter_congr fun e he => ?_
    by_cases haddr : addr e.2 = a
    · simp [haddr, hlabel e he haddr]
    · simp [haddr]
  rw [exec_apply, exec_apply, hfilter]

end Sirius.Common
