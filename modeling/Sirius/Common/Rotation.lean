import Mathlib

/-!
# Searching around a ring

The positions `0, …, n - 1` stand in a ring. `firstFrom n p k` is the first position with `p` that is
met when one goes round from `k`, `k` itself first.

* `exists_distance`: what stands between `k` and the position that is found.
* `firstFrom_here`, `firstFrom_skip`: one step of the search.
* `firstFrom_of_imp`: a search for less goes on where the search for more stopped.
-/

namespace Sirius.Common

variable {n k j : ℕ} {p q : ℕ → Bool}

/-- The first position with `p`, going round from `k`. -/
def firstFrom (n : ℕ) (p : ℕ → Bool) (k : ℕ) : Option ℕ :=
  ((List.range n).map fun d => (k + d) % n).find? p

/-- The position that is found, by its distance from `k`. -/
theorem exists_distance (h : firstFrom n p k = some j) :
    ∃ d < n, j = (k + d) % n ∧ p j ∧ ∀ e < d, ¬p ((k + e) % n) := by
  unfold firstFrom at h
  rw [List.find?_map] at h
  obtain ⟨d, hd, rfl⟩ := Option.map_eq_some_iff.mp h
  have hlt : d < n := List.mem_range.mp (List.mem_of_find?_eq_some hd)
  obtain ⟨hp, as, bs, has, hbefore⟩ := List.find?_eq_some_iff_append.mp hd
  have hlen : as.length = d := by
    have hget : (List.range n)[as.length]? = some d := by rw [has]; simp
    obtain ⟨_, heq⟩ := List.getElem?_eq_some_iff.mp hget
    rwa [List.getElem_range] at heq
  have hfront : as = List.range d := by
    have htake := congrArg (List.take as.length) has
    rw [List.take_left, List.take_range, hlen, Nat.min_eq_left hlt.le] at htake
    exact htake.symm
  refine ⟨d, hlt, rfl, hp, fun e he hpe => ?_⟩
  have hnot := hbefore e (by rw [hfront]; exact List.mem_range.mpr he)
  rw [Function.comp_apply, hpe] at hnot
  cases hnot

theorem firstFrom_spec (h : firstFrom n p k = some j) : j < n ∧ p j := by
  obtain ⟨d, hd, rfl, hp, -⟩ := exists_distance h
  exact ⟨Nat.mod_lt _ (by omega), hp⟩

/-- Every position is met. -/
theorem exists_turn (k : ℕ) {i : ℕ} (hi : i < n) : ∃ d < n, (k + d) % n = i := by
  have hn : 0 < n := by omega
  have hlt := Nat.mod_lt k hn
  refine ⟨(i + (n - k % n)) % n, Nat.mod_lt _ hn, ?_⟩
  have hround : k + (i + (n - k % n)) = i + n * (k / n + 1) := by
    have := Nat.div_add_mod k n
    rw [Nat.mul_add, Nat.mul_one]
    omega
  rw [Nat.add_mod_mod, hround, Nat.add_mul_mod_self_left, Nat.mod_eq_of_lt hi]

theorem firstFrom_eq_none : firstFrom n p k = none ↔ ∀ i < n, ¬p i := by
  unfold firstFrom
  rw [List.find?_eq_none]
  constructor
  · intro h i hi
    obtain ⟨d, hd, heq⟩ := exists_turn k hi
    exact h i (List.mem_map.mpr ⟨d, List.mem_range.mpr hd, heq⟩)
  · intro h x hx
    obtain ⟨d, hd, rfl⟩ := List.mem_map.mp hx
    have hn : 0 < n := Nat.lt_of_le_of_lt (Nat.zero_le _) (List.mem_range.mp hd)
    exact h _ (Nat.mod_lt _ hn)

theorem firstFrom_here (hk : k < n) (hp : p k) : firstFrom n p k = some k := by
  obtain ⟨m, rfl⟩ : ∃ m, n = m + 1 := ⟨n - 1, by omega⟩
  unfold firstFrom
  rw [List.range_succ_eq_map, List.map_cons, List.find?_cons_of_pos]
  · rw [Nat.add_zero, Nat.mod_eq_of_lt hk]
  · rwa [Nat.add_zero, Nat.mod_eq_of_lt hk]

theorem firstFrom_skip (hk : k < n) (hp : ¬p k) :
    firstFrom n p k = firstFrom n p ((k + 1) % n) := by
  obtain ⟨m, rfl⟩ : ∃ m, n = m + 1 := ⟨n - 1, by omega⟩
  have hhere : (k + 0) % (m + 1) = k := by rw [Nat.add_zero, Nat.mod_eq_of_lt hk]
  have hlast : ((k + 1) % (m + 1) + m) % (m + 1) = k := by
    rw [Nat.mod_add_mod, show k + 1 + m = k + (m + 1) by omega, Nat.add_mod_right,
      Nat.mod_eq_of_lt hk]
  have hrest : ((List.range m).map Nat.succ).map (fun d => (k + d) % (m + 1))
      = (List.range m).map fun d => ((k + 1) % (m + 1) + d) % (m + 1) := by
    rw [List.map_map]
    refine List.map_congr_left fun d _ => ?_
    rw [Function.comp_apply, Nat.mod_add_mod, Nat.succ_eq_add_one,
      show k + (d + 1) = k + 1 + d by omega]
  have hfail : [((k + 1) % (m + 1) + m) % (m + 1)].find? p = none := by
    rw [hlast]
    simp [hp]
  unfold firstFrom
  rw [List.range_succ_eq_map, List.map_cons, List.find?_cons_of_neg (by rwa [hhere]), hrest,
    ← List.range_succ_eq_map, List.range_succ, List.map_append, List.find?_append,
    List.map_singleton, hfail, Option.or_none]

/-- A stretch without `p` is skipped. -/
theorem firstFrom_skips (hn : 0 < n) {d : ℕ} (h : ∀ e < d, ¬p ((k + e) % n)) :
    firstFrom n p (k % n) = firstFrom n p ((k + d) % n) := by
  induction d with
  | zero => rfl
  | succ d ih =>
    rw [ih fun e he => h e (by omega), firstFrom_skip (Nat.mod_lt _ hn) (h d (by omega)),
      Nat.mod_add_mod]
    rfl

/-- The search for less goes on where the search for more stopped. -/
theorem firstFrom_of_imp (hk : k < n) (himp : ∀ i, q i → p i) (h : firstFrom n p k = some j) :
    firstFrom n q k = firstFrom n q j := by
  obtain ⟨d, hd, rfl, -, hbefore⟩ := exists_distance h
  have hskips := firstFrom_skips (p := q) (k := k) (n := n) (by omega) (d := d)
    fun e he hq => hbefore e he (himp _ hq)
  rwa [Nat.mod_eq_of_lt hk] at hskips

/-- The only position with `p` is found from everywhere. -/
theorem firstFrom_sole (hj : j < n) (hp : p j) (hsole : ∀ i < n, p i → i = j) :
    firstFrom n p k = some j := by
  cases h : firstFrom n p k with
  | none => exact absurd hp (firstFrom_eq_none.mp h j hj)
  | some i =>
    obtain ⟨hi, hpi⟩ := firstFrom_spec h
    rw [hsole i hi hpi]

/-- Who goes all the way round found nobody else. -/
theorem firstFrom_back (hk : k < n) (h : firstFrom n p ((k + 1) % n) = some k) :
    ∀ i < n, p i → i = k := by
  obtain ⟨d, hd, heq, -, hbefore⟩ := exists_distance h
  rw [Nat.mod_add_mod] at heq
  have hround : d = n - 1 := by
    by_cases hlt : k + 1 + d < n
    · rw [Nat.mod_eq_of_lt hlt] at heq
      omega
    · rw [Nat.mod_eq_sub_mod (by omega), Nat.mod_eq_of_lt (by omega)] at heq
      omega
  intro i hi hpi
  by_contra hne
  refine hbefore ((i + (n - 1 - k)) % n) ?_ ?_
  · by_cases hlt : i < k
    · rw [Nat.mod_eq_of_lt (by omega)]
      omega
    · rw [Nat.mod_eq_sub_mod (by omega), Nat.mod_eq_of_lt (by omega)]
      omega
  · rw [Nat.mod_add_mod, Nat.add_mod_mod, show k + 1 + (i + (n - 1 - k)) = i + n by omega,
      Nat.add_mod_right, Nat.mod_eq_of_lt hi]
    exact hpi

end Sirius.Common
