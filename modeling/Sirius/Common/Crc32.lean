import Mathlib

/-!
# CRC-32 with a table

The reflected CRC of a byte string, taken bit by bit, and the same register driven
by a table of the 256 remainders of one byte.

* `tableStep_eq`: one byte through the table is eight turns of the register.
* `tableCrc_eq`: the two give the same checksum of every byte string.
-/

namespace Sirius.Common.Crc32

/-- The reflected CRC-32 polynomial. -/
def polynomial : UInt32 := 0xEDB88320

/-- One turn of the register. -/
def turn (c : UInt32) : UInt32 :=
  if c &&& 1 ≠ 0 then polynomial ^^^ (c >>> 1) else c >>> 1

/-- `n` turns of the register. -/
def turns : ℕ → UInt32 → UInt32
  | 0, c => c
  | n + 1, c => turns n (turn c)

/-- A byte into the register, bit by bit. -/
def byteStep (crc : UInt32) (b : UInt8) : UInt32 := turns 8 (crc ^^^ b.toUInt32)

/-- The checksum: a register of ones, every byte, and the ones again. -/
def crc32 (bytes : List UInt8) : UInt32 := bytes.foldl byteStep 0xFFFFFFFF ^^^ 0xFFFFFFFF

/-- A byte into the register through the table of remainders. -/
def tableStep (crc : UInt32) (b : UInt8) : UInt32 :=
  turns 8 ((crc ^^^ b.toUInt32) &&& 0xFF) ^^^ (crc >>> 8)

/-! ## The register is linear -/

theorem low_bit (c : UInt32) : (c &&& 1 ≠ 0) ↔ c.toBitVec.getLsbD 0 = true := by
  rw [Ne, ← UInt32.toBitVec_inj, UInt32.toBitVec_and]
  have h : c.toBitVec &&& (1 : UInt32).toBitVec =
      BitVec.setWidth 32 (BitVec.ofBool (c.toBitVec.getLsbD 0)) :=
    BitVec.and_one_eq_setWidth_ofBool_getLsbD
  rw [h]
  cases c.toBitVec.getLsbD 0 <;> decide

theorem turn_xor (a b : UInt32) : turn (a ^^^ b) = turn a ^^^ turn b := by
  have hshift : (a ^^^ b) >>> 1 = (a >>> 1) ^^^ (b >>> 1) := by
    apply UInt32.toBitVec_inj.mp
    simp [BitVec.ushiftRight_xor_distrib]
  have hbit : (a ^^^ b).toBitVec.getLsbD 0 =
      (a.toBitVec.getLsbD 0 ^^ b.toBitVec.getLsbD 0) := by
    rw [UInt32.toBitVec_xor, BitVec.getLsbD_xor]
  simp only [turn, low_bit, hbit, hshift]
  cases a.toBitVec.getLsbD 0 <;> cases b.toBitVec.getLsbD 0
  · simp
  · simp only [Bool.false_xor, if_true, Bool.false_eq_true, if_false]
    ac_rfl
  · simp only [Bool.xor_false, if_true, Bool.false_eq_true, if_false]
    ac_rfl
  · simp only [Bool.xor_self, Bool.false_eq_true, if_false, if_true]
    rw [UInt32.xor_comm polynomial (b >>> 1), UInt32.xor_assoc, ← UInt32.xor_assoc (a >>> 1),
      UInt32.xor_comm polynomial, UInt32.xor_assoc, UInt32.xor_self, UInt32.xor_zero]

theorem turns_xor (n : ℕ) (a b : UInt32) : turns n (a ^^^ b) = turns n a ^^^ turns n b := by
  induction n generalizing a b with
  | zero => rfl
  | succ n ih => rw [turns, turn_xor, ih, turns, turns]

/-- Clear low bits only move down. -/
theorem turns_of_low_clear {n : ℕ} {x : UInt32} (h : ∀ i < n, x.toBitVec.getLsbD i = false) :
    (turns n x).toBitVec = x.toBitVec >>> n := by
  induction n generalizing x with
  | zero => simp [turns]
  | succ n ih =>
    have hturn : (turn x).toBitVec = x.toBitVec >>> 1 := by
      have hlow : ¬(x &&& 1 ≠ 0) := by
        rw [low_bit, h 0 (Nat.succ_pos n)]
        exact Bool.false_ne_true
      rw [turn, if_neg hlow]
      simp
    have hclear : ∀ i < n, (turn x).toBitVec.getLsbD i = false := by
      intro i hi
      rw [hturn, BitVec.getLsbD_ushiftRight]
      exact h (1 + i) (by omega)
    rw [turns, ih hclear, hturn, ← BitVec.shiftRight_add, Nat.add_comm 1 n]

/-! ## A byte at a time -/

theorem getLsbD_255 (i : ℕ) : (255#32).getLsbD i = decide (i < 8) := by
  have h255 : (255 : ℕ) = 2 ^ 8 - 1 := rfl
  rw [BitVec.getLsbD_ofNat, h255, Nat.testBit_two_pow_sub_one]
  by_cases hi : i < 8
  · simp [hi, show i < 32 by omega]
  · simp [hi]

theorem split_low (x : UInt32) : x = (x &&& 0xFF) ^^^ (x &&& ~~~0xFF) := by
  apply UInt32.toBitVec_inj.mp
  apply BitVec.eq_of_getLsbD_eq
  intro i hi
  simp only [UInt32.toBitVec_xor, UInt32.toBitVec_and, UInt32.toBitVec_not, BitVec.getLsbD_xor,
    BitVec.getLsbD_and, BitVec.getLsbD_not, hi, decide_true, Bool.true_and]
  cases x.toBitVec.getLsbD i <;> cases (UInt32.toBitVec 0xFF).getLsbD i <;> rfl

/-- Eight turns read the low byte off and move the rest down. -/
theorem turns_eight (x : UInt32) :
    (turns 8 x).toBitVec = (turns 8 (x &&& 0xFF)).toBitVec ^^^ (x.toBitVec >>> 8) := by
  have hclear : ∀ i < 8, (x &&& ~~~0xFF).toBitVec.getLsbD i = false := by
    intro i hi
    have h255 : (UInt32.toBitVec 0xFF).getLsbD i = true := by
      rw [show UInt32.toBitVec 0xFF = 255#32 from rfl, getLsbD_255]
      exact decide_eq_true hi
    rw [UInt32.toBitVec_and, UInt32.toBitVec_not, BitVec.getLsbD_and, BitVec.getLsbD_not, h255]
    simp
  have hhigh : (x &&& ~~~0xFF).toBitVec >>> 8 = x.toBitVec >>> 8 := by
    apply BitVec.eq_of_getLsbD_eq
    intro i _
    rw [BitVec.getLsbD_ushiftRight, BitVec.getLsbD_ushiftRight, UInt32.toBitVec_and,
      UInt32.toBitVec_not, BitVec.getLsbD_and, BitVec.getLsbD_not,
      show UInt32.toBitVec 0xFF = 255#32 from rfl, getLsbD_255]
    by_cases h : 8 + i < 32
    · simp [h]
    · simp [BitVec.getLsbD_of_ge x.toBitVec (8 + i) (by omega)]
  conv_lhs => rw [split_low x, turns_xor, UInt32.toBitVec_xor, turns_of_low_clear hclear, hhigh]

/-- **One byte through the table is eight turns of the register.** -/
theorem tableStep_eq (crc : UInt32) (b : UInt8) : tableStep crc b = byteStep crc b := by
  have hb : b.toUInt32.toBitVec >>> 8 = 0#32 := by
    apply BitVec.eq_of_toNat_eq
    have hlt : b.toNat < 256 := b.toNat_lt
    simp only [UInt32.toNat_toBitVec, BitVec.toNat_ushiftRight, UInt8.toNat_toUInt32,
      BitVec.toNat_ofNat, Nat.shiftRight_eq_div_pow]
    omega
  apply UInt32.toBitVec_inj.mp
  rw [byteStep, turns_eight, UInt32.toBitVec_xor crc, BitVec.ushiftRight_xor_distrib, hb,
    BitVec.xor_zero, tableStep]
  simp

/-- **The table gives the checksum of every byte string.** -/
theorem tableCrc_eq (bytes : List UInt8) :
    bytes.foldl tableStep 0xFFFFFFFF ^^^ 0xFFFFFFFF = crc32 bytes := by
  have hstep : tableStep = byteStep := by
    funext crc b
    exact tableStep_eq crc b
  rw [hstep, crc32]

end Sirius.Common.Crc32
