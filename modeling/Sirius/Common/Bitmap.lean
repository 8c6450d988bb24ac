import Mathlib

/-!
# Sets of numbers in words of 64 bits

A set of numbers is kept in words: `i` is a member where bit `i % 64` of word `i / 64` is set.

* `member_insert`, `member_remove`: what one bit changes.
* `lowest`: the member of a word that its trailing zeros name.
* `getLsbD_lowMask`: the word of the first `n` bits.
-/

namespace Sirius.Common.Bitmap

variable {words : ℕ → BitVec 64} {i j w n : ℕ}

/-- Bit `i` of the bitmap. -/
def member (words : ℕ → BitVec 64) (i : ℕ) : Bool := (words (i / 64)).getLsbD (i % 64)

/-- The word with bit `b` only. -/
def bit (b : ℕ) : BitVec 64 := 1#64 <<< b

/-- Bit `i` is set. -/
def insert (words : ℕ → BitVec 64) (i : ℕ) : ℕ → BitVec 64 :=
  Function.update words (i / 64) (words (i / 64) ||| bit (i % 64))

/-- Bit `i` is cleared. -/
def remove (words : ℕ → BitVec 64) (i : ℕ) : ℕ → BitVec 64 :=
  Function.update words (i / 64) (words (i / 64) &&& ~~~bit (i % 64))

theorem getLsbD_bit {b : ℕ} (hb : b < 64) : (bit b).getLsbD n = decide (n = b) := by
  unfold bit
  rw [← BitVec.twoPow_eq, BitVec.getLsbD_twoPow]
  simp [hb, eq_comm]

theorem same_place (hword : j / 64 = i / 64) : j % 64 = i % 64 ↔ j = i := by
  constructor
  · intro h
    omega
  · rintro rfl
    rfl

@[simp] theorem member_insert : member (insert words i) j = (decide (j = i) || member words j) := by
  unfold member insert
  by_cases hword : j / 64 = i / 64
  · rw [hword, Function.update_self, BitVec.getLsbD_or, getLsbD_bit (Nat.mod_lt _ (by decide)),
      Bool.or_comm]
    simp only [same_place hword]
  · have hne : j ≠ i := fun h => hword (by rw [h])
    rw [Function.update_of_ne hword]
    simp [hne]

@[simp] theorem member_remove :
    member (remove words i) j = (member words j && !decide (j = i)) := by
  unfold member remove
  by_cases hword : j / 64 = i / 64
  · rw [hword, Function.update_self, BitVec.getLsbD_and, BitVec.getLsbD_not,
      getLsbD_bit (Nat.mod_lt _ (by decide))]
    simp only [same_place hword, Nat.mod_lt j (by decide : 64 > 0), decide_true, Bool.true_and]
  · have hne : j ≠ i := fun h => hword (by rw [h])
    rw [Function.update_of_ne hword]
    simp [hne]

/-- A word without bits has no members. -/
theorem not_member_of_zero (h : words (i / 64) = 0) : member words i = false := by
  unfold member
  rw [h]
  exact BitVec.getLsbD_zero

/-- The member of a word that its trailing zeros name. -/
theorem lowest (h : words w ≠ 0) :
    (words w).ctz.toNat < 64 ∧ member words (w * 64 + (words w).ctz.toNat) := by
  have hlt : (words w).ctz.toNat < 64 := BitVec.ctz_lt_iff_ne_zero.mpr h
  refine ⟨hlt, ?_⟩
  unfold member
  rw [show (w * 64 + (words w).ctz.toNat) / 64 = w by omega,
    show (w * 64 + (words w).ctz.toNat) % 64 = (words w).ctz.toNat by omega]
  exact BitVec.getLsbD_true_ctz_of_ne_zero h

/-- The word of the first `n` bits. -/
def lowMask (n : ℕ) : BitVec 64 := if n = 64 then ~~~0#64 else bit n - 1#64

theorem getLsbD_lowMask (hn : n ≤ 64) : (lowMask n).getLsbD i = decide (i < n) := by
  unfold lowMask
  split_ifs with h
  · rw [BitVec.getLsbD_not, BitVec.getLsbD_zero]
    simp [h]
  · have hlt : n < 64 := by omega
    have hpow : 2 ^ n < 2 ^ 64 := Nat.pow_lt_pow_right (by decide) hlt
    have hpos : 0 < 2 ^ n := Nat.two_pow_pos n
    have hval : (bit n - 1#64).toNat = 2 ^ n - 1 := by
      unfold bit
      rw [← BitVec.twoPow_eq, BitVec.toNat_sub, BitVec.toNat_twoPow_of_lt hlt, BitVec.toNat_ofNat]
      omega
    rw [← BitVec.testBit_toNat, hval, Nat.testBit_two_pow_sub_one]

end Sirius.Common.Bitmap
