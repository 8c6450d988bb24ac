import Sirius.Common.Interleaving

/-!
# Bits packed into 32-bit words

A bitmap is a memory of 32-bit words, with bit `k` in bit `k % 32` of word
`k / 32`. A write sets or clears the bits of a mask in one word, or stores a whole
word.

* `bitAt_exec_single`: what one write does to a bit.
* `bitAt_exec_fill`: what a run of stored words does.
* `getLsbD_headMask`, `getLsbD_tailMask`: the masks of the two ends of a range.
-/

namespace Sirius.Common

/-- A 32-bit word. -/
abbrev Word := BitVec 32

/-- Bit `k` of a bitmap. -/
def bitAt (m : ℕ → Word) (k : ℕ) : Bool := (m (k / 32)).getLsbD (k % 32)

/-- What a write does to its word. -/
inductive WordOp where
  | set (mask : Word)
  | clear (mask : Word)
  | store (value : Word)
  deriving DecidableEq, Repr

/-- A write to one word. -/
structure WordWrite where
  word : ℕ
  op : WordOp
  deriving DecidableEq, Repr

def WordWrite.act (w : WordWrite) (old : Word) : Word :=
  match w.op with
  | .set mask => old ||| mask
  | .clear mask => old &&& ~~~mask
  | .store value => value

/-- Run writes on a bitmap. -/
def execWords (ws : List WordWrite) (m : ℕ → Word) : ℕ → Word :=
  exec WordWrite.word WordWrite.act ws m

@[simp] theorem execWords_nil (m : ℕ → Word) : execWords [] m = m := rfl

theorem execWords_append (ws ws' : List WordWrite) (m : ℕ → Word) :
    execWords (ws ++ ws') m = execWords ws' (execWords ws m) :=
  exec_append ws ws' m

theorem bitAt_exec_single (w : WordWrite) (m : ℕ → Word) (k : ℕ) :
    bitAt (execWords [w] m) k =
      if w.word = k / 32 then (w.act (m (k / 32))).getLsbD (k % 32) else bitAt m k := by
  unfold bitAt execWords
  rw [exec_cons, exec_nil]
  by_cases h : w.word = k / 32
  · rw [if_pos h, h, Function.update_self]
  · rw [if_neg h, Function.update_of_ne (Ne.symm h)]

/-- A run of words that are stored whole. -/
theorem bitAt_exec_fill (first n : ℕ) (value : Word) (m : ℕ → Word) (k : ℕ) :
    bitAt (execWords ((List.range' first n).map fun w => ⟨w, .store value⟩) m) k =
      if first ≤ k / 32 ∧ k / 32 < first + n then value.getLsbD (k % 32) else bitAt m k := by
  induction n generalizing first m with
  | zero => simp
  | succ n ih =>
    rw [List.range'_succ, List.map_cons, ← List.singleton_append, execWords_append, ih,
      bitAt_exec_single]
    simp only [WordWrite.act]
    split_ifs <;> first | rfl | omega

/-- The bits from `head` on. -/
theorem getLsbD_headMask (head : ℕ) {i : ℕ} (hi : i < 32) :
    (BitVec.allOnes 32 <<< head).getLsbD i = decide (head ≤ i) := by
  rw [BitVec.getLsbD_shiftLeft, BitVec.getLsbD_allOnes]
  by_cases h : i < head
  · simp [hi, h]
  · simp [hi, h, show i - head < 32 by omega]
    omega

/-- The bits below `tail`. -/
theorem getLsbD_tailMask (tail : ℕ) {i : ℕ} (hi : i < 32) :
    (~~~(BitVec.allOnes 32 <<< tail)).getLsbD i = decide (i < tail) := by
  rw [BitVec.getLsbD_not, getLsbD_headMask tail hi]
  by_cases h : tail ≤ i
  · simp [hi, h]
  · simp [hi, h, Nat.lt_of_not_le h]

end Sirius.Common
