import Mathlib

/-!
# Distinct values by runs and ranges

A sorted list has no repeats when it has as many runs as elements, and a list of lists has none when
no list has and the lists lie in ranges apart.

* `pairwise_lt_of_runCount`: a sorted list with a run for each element.
* `pairwise_apart`: ranges in order of their minima, each below the next.
* `nodup_flatten_of_apart`: lists in ranges apart.
-/

namespace Sirius.Common.Distinct

variable {α : Type*} [LinearOrder α]

/-! ## Runs -/

/-- The number of runs of equal neighbours. -/
def runCount : List α → ℕ
  | [] => 0
  | [_] => 1
  | a :: b :: l => (if a = b then 0 else 1) + runCount (b :: l)

theorem runCount_le (l : List α) : runCount l ≤ l.length := by
  induction l with
  | nil => exact le_rfl
  | cons a l ih =>
    cases l with
    | nil => exact le_rfl
    | cons b l =>
      unfold runCount
      rw [List.length_cons]
      split_ifs <;> omega

theorem pairwise_lt_of_runCount {l : List α} (hsorted : l.Pairwise (· ≤ ·))
    (hcount : runCount l = l.length) : l.Pairwise (· < ·) := by
  induction l with
  | nil => exact List.Pairwise.nil
  | cons a l ih =>
    obtain ⟨hle, hrest⟩ := List.pairwise_cons.mp hsorted
    cases l with
    | nil => exact List.pairwise_singleton _ _
    | cons b l =>
      have hbound := runCount_le (b :: l)
      unfold runCount at hcount
      rw [List.length_cons] at hcount
      have hne : a ≠ b := by
        rintro rfl
        rw [if_pos rfl] at hcount
        omega
      rw [if_neg hne] at hcount
      have hlt := ih hrest (by omega)
      refine List.pairwise_cons.mpr ⟨fun c hc => ?_, hlt⟩
      have hab : a < b := lt_of_le_of_ne (hle b List.mem_cons_self) hne
      rcases List.mem_cons.mp hc with rfl | hc
      · exact hab
      · exact hab.trans ((List.pairwise_cons.mp hlt).1 c hc)

/-! ## Ranges -/

structure Range (α : Type*) where
  min : α
  max : α
  deriving DecidableEq, Repr

/-- Each range ends before the next one starts. -/
def adjacentApart : List (Range α) → Bool
  | [] => true
  | [_] => true
  | a :: b :: l => a.max < b.min && adjacentApart (b :: l)

/-- In order of the minima it is enough to look at neighbours. -/
theorem pairwise_apart {l : List (Range α)} (hsorted : l.Pairwise fun a b => a.min ≤ b.min)
    (hadjacent : adjacentApart l) : l.Pairwise fun a b => a.max < b.min := by
  induction l with
  | nil => exact List.Pairwise.nil
  | cons a l ih =>
    obtain ⟨-, hrest⟩ := List.pairwise_cons.mp hsorted
    cases l with
    | nil => exact List.pairwise_singleton _ _
    | cons b l =>
      simp only [adjacentApart, Bool.and_eq_true, decide_eq_true_eq] at hadjacent
      obtain ⟨hab, hadjacent⟩ := hadjacent
      refine List.pairwise_cons.mpr ⟨fun c hc => ?_, ih hrest hadjacent⟩
      rcases List.mem_cons.mp hc with rfl | hc
      · exact hab
      · exact hab.trans_le ((List.pairwise_cons.mp hrest).1 c hc)

/-- The values lie in the range. -/
def Within (r : Range α) (values : List α) : Prop := ∀ v ∈ values, r.min ≤ v ∧ v ≤ r.max

/-- One range ends before the other starts. -/
def Apart (a b : Range α) : Prop := a.max < b.min ∨ b.max < a.min

theorem Apart.symm {a b : Range α} (h : Apart a b) : Apart b a := Or.symm h

theorem Apart.disjoint {a b : Range α} {u v : List α} (h : Apart a b) (hu : Within a u)
    (hv : Within b v) : u.Disjoint v := by
  intro x hxu hxv
  obtain ⟨hau, hua⟩ := hu x hxu
  obtain ⟨hbv, hvb⟩ := hv x hxv
  rcases h with h | h
  · exact absurd (hua.trans_lt (h.trans_le hbv)) (lt_irrefl x)
  · exact absurd (hvb.trans_lt (h.trans_le hau)) (lt_irrefl x)

/-- Lists without repeats in ranges apart have no repeats together. -/
theorem nodup_flatten_of_apart {l : List (Range α × List α)}
    (hnodup : ∀ e ∈ l, e.2.Nodup ∧ Within e.1 e.2)
    (hapart : (l.map Prod.fst).Pairwise Apart) : (l.map Prod.snd).flatten.Nodup := by
  rw [List.nodup_flatten]
  constructor
  · intro values hvalues
    obtain ⟨e, he, rfl⟩ := List.mem_map.mp hvalues
    exact (hnodup e he).1
  · rw [List.pairwise_map] at hapart ⊢
    refine hapart.imp_of_mem fun {a b} ha hb h => ?_
    exact h.disjoint (hnodup a ha).2 (hnodup b hb).2

/-- Ranges that are apart in order of their minima are apart in any order. -/
theorem pairwise_apart_of_insertionSort {l : List (Range α)}
    (h : adjacentApart (l.insertionSort fun a b => a.min ≤ b.min)) : l.Pairwise Apart := by
  have htotal : Std.Total fun a b : Range α => a.min ≤ b.min := ⟨fun a b => le_total a.min b.min⟩
  have htrans : IsTrans (Range α) fun a b => a.min ≤ b.min := ⟨fun _ _ _ => le_trans⟩
  have hsorted : (l.insertionSort fun a b => a.min ≤ b.min).Pairwise Apart :=
    (pairwise_apart (List.pairwise_insertionSort _ l) h).imp fun h => Or.inl h
  exact (List.perm_insertionSort _ l).pairwise_iff (fun h => Apart.symm h) |>.mp hsorted

end Sirius.Common.Distinct
