import Mathlib

/-!
# Fields of a packed word

A machine word that carries several fields is read with `(x & mask) >> lo` and
written with `(x & ~mask) | (v << lo)`. The lemmas here turn both into
arithmetic on `BitVec.toNat`: a read is a quotient followed by a remainder, and
a write subtracts the old contents of the field and adds the new ones.

* `mask lo n`: the `n` bits from bit `lo` on.
* `toNat_and_mask`, `toNat_field`: reading a field.
* `toNat_replace_field`: overwriting a field.
-/

namespace Sirius.Common.PackedWord

variable {w : ℕ}

/-- The mask that selects the bits `lo, …, lo + n - 1`. -/
def mask (w lo n : ℕ) : BitVec w := BitVec.ofNat w (2 ^ n - 1) <<< lo

theorem getLsbD_mask (lo n i : ℕ) :
    (mask w lo n).getLsbD i = decide (i < w ∧ lo ≤ i ∧ i < lo + n) := by
  unfold mask
  rw [BitVec.getLsbD_shiftLeft, BitVec.getLsbD_ofNat, Nat.testBit_two_pow_sub_one]
  by_cases h1 : i < w <;> by_cases h2 : lo ≤ i <;> by_cases h3 : i < lo + n <;>
    simp [h1, h2, h3] <;> omega

/-- The bits of `x` under `mask lo n`, as a number. -/
theorem toNat_and_mask (x : BitVec w) {lo n : ℕ} (h : lo + n ≤ w) :
    (x &&& mask w lo n).toNat = x.toNat / 2 ^ lo % 2 ^ n * 2 ^ lo := by
  apply Nat.eq_of_testBit_eq
  intro i
  rw [BitVec.testBit_toNat, BitVec.getLsbD_and, getLsbD_mask, Nat.testBit_mul_two_pow,
    Nat.testBit_mod_two_pow, Nat.testBit_div_two_pow, ← BitVec.testBit_toNat]
  by_cases h1 : lo ≤ i
  · rw [show i - lo + lo = i by omega]
    by_cases h2 : i < lo + n
    · have : i < w := by omega
      simp [h1, h2, this, show i - lo < n by omega]
    · simp [h1, h2, show ¬ i - lo < n by omega]
  · simp [h1]

/-- Reading the field `[lo, lo + n)`. -/
theorem toNat_field (x : BitVec w) {lo n : ℕ} (h : lo + n ≤ w) :
    ((x &&& mask w lo n) >>> lo).toNat = x.toNat / 2 ^ lo % 2 ^ n := by
  rw [BitVec.toNat_ushiftRight, toNat_and_mask x h, Nat.shiftRight_eq_div_pow]
  exact Nat.mul_div_cancel _ (Nat.two_pow_pos lo)

theorem toNat_or_of_and_eq_zero {x y : BitVec w} (h : x &&& y = 0#w) :
    (x ||| y).toNat = x.toNat + y.toNat := by
  rw [← BitVec.add_eq_or_of_and_eq_zero x y h, BitVec.toNat_add_of_and_eq_zero h]

/-- Combining a word below bit `k` with one that starts at bit `k`. -/
theorem toNat_or_of_lt {x y : BitVec w} {k : ℕ} (hx : x.toNat < 2 ^ k) (hy : 2 ^ k ∣ y.toNat) :
    (x ||| y).toNat = x.toNat + y.toNat := by
  obtain ⟨q, hq⟩ := hy
  rw [BitVec.toNat_or, hq, Nat.lor_comm, Nat.mul_comm, ← Nat.shiftLeft_eq,
    ← Nat.shiftLeft_add_eq_or_of_lt hx, Nat.add_comm]

/-- The bits under a mask and the bits outside it add up to the word. -/
theorem toNat_and_add_and_not (x m : BitVec w) :
    (x &&& m).toNat + (x &&& ~~~m).toNat = x.toNat := by
  have hdis : (x &&& m) &&& (x &&& ~~~m) = 0#w := by
    ext i hi
    simp only [BitVec.getElem_and, BitVec.getElem_not, BitVec.getElem_zero]
    cases x[i] <;> cases m[i] <;> rfl
  have hor : (x &&& m) ||| (x &&& ~~~m) = x := by
    ext i hi
    simp only [BitVec.getElem_and, BitVec.getElem_not, BitVec.getElem_or]
    cases x[i] <;> cases m[i] <;> rfl
  calc (x &&& m).toNat + (x &&& ~~~m).toNat
      = ((x &&& m) ||| (x &&& ~~~m)).toNat := (toNat_or_of_and_eq_zero hdis).symm
    _ = x.toNat := by rw [hor]

/-- Overwriting the bits under `m` by `y`, where `y` has no bit outside `m`. -/
theorem toNat_replace (x m y : BitVec w) (hy : y &&& ~~~m = 0#w) :
    ((x &&& ~~~m) ||| y).toNat = x.toNat - (x &&& m).toNat + y.toNat := by
  have hdis : (x &&& ~~~m) &&& y = 0#w := by
    rw [BitVec.and_assoc, BitVec.and_comm (~~~m), hy, BitVec.and_zero]
  have hsplit := toNat_and_add_and_not x m
  rw [toNat_or_of_and_eq_zero hdis]
  omega

/-- Overwriting the field `[lo, lo + n)` by a word with no other bit. -/
theorem toNat_replace_field (x : BitVec w) {y : BitVec w} {lo n : ℕ} (h : lo + n ≤ w)
    (hy : y.toNat / 2 ^ lo % 2 ^ n * 2 ^ lo = y.toNat) :
    ((x &&& ~~~mask w lo n) ||| y).toNat =
      x.toNat - x.toNat / 2 ^ lo % 2 ^ n * 2 ^ lo + y.toNat := by
  have hin : y &&& ~~~mask w lo n = 0#w := by
    have hsplit := toNat_and_add_and_not y (mask w lo n)
    rw [toNat_and_mask y h, hy] at hsplit
    apply BitVec.eq_of_toNat_eq
    rw [BitVec.toNat_zero]
    omega
  rw [toNat_replace x _ y hin, toNat_and_mask x h]

/-- Clearing two masks and setting bits of the first is the same in any order. -/
theorem and_not_or_or (x a b y : BitVec w) (hy : y &&& b = 0#w) :
    (x &&& ~~~(a ||| b)) ||| y = ((x &&& ~~~a) ||| y) &&& ~~~b := by
  ext i hi
  have hyi : (y[i] && b[i]) = false := by
    rw [← BitVec.getElem_and, hy, BitVec.getElem_zero]
  simp only [BitVec.getElem_and, BitVec.getElem_not, BitVec.getElem_or]
  cases hx : x[i] <;> cases ha : a[i] <;> cases hb : b[i] <;> cases hyy : y[i] <;> simp_all

/-- A value that fits keeps its numeric weight when it is shifted into place. -/
theorem toNat_shiftLeft {v lo n : ℕ} (hv : v < 2 ^ n) (h : lo + n ≤ w) :
    (BitVec.ofNat w v <<< lo).toNat = v * 2 ^ lo := by
  have hw : v * 2 ^ lo < 2 ^ w :=
    calc v * 2 ^ lo < 2 ^ n * 2 ^ lo := Nat.mul_lt_mul_of_pos_right hv (Nat.two_pow_pos lo)
      _ = 2 ^ (lo + n) := by rw [← pow_add, Nat.add_comm]
      _ ≤ 2 ^ w := Nat.pow_le_pow_right (by norm_num) h
  have hv' : v < 2 ^ w := lt_of_le_of_lt (Nat.le_mul_of_pos_right v (Nat.two_pow_pos lo)) hw
  rw [BitVec.toNat_shiftLeft, BitVec.toNat_ofNat, Nat.mod_eq_of_lt hv', Nat.shiftLeft_eq,
    Nat.mod_eq_of_lt hw]

theorem ofNat_eq_zero {n : ℕ} (hn : n < 2 ^ w) : BitVec.ofNat w n = 0 ↔ n = 0 := by
  rw [BitVec.toNat_eq, BitVec.toNat_ofNat, Nat.mod_eq_of_lt hn]
  simp

theorem ofNat_add_one (n : ℕ) : BitVec.ofNat w n + 1 = BitVec.ofNat w (n + 1) :=
  (BitVec.ofNat_add n 1).symm

theorem ofNat_sub_one {n : ℕ} (hpos : 0 < n) : BitVec.ofNat w n - 1 = BitVec.ofNat w (n - 1) := by
  obtain ⟨m, rfl⟩ : ∃ m, n = m + 1 := ⟨n - 1, by omega⟩
  rw [← ofNat_add_one, Nat.add_sub_cancel]
  exact BitVec.add_sub_cancel _ _

end Sirius.Common.PackedWord
