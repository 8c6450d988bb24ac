import Mathlib

/-!
# Byte strings

Fixed-width numbers in byte strings, tables of fixed-width records, sorted blocks,
and the set bits of a word.

* `leValue_leBytes`: the little-endian bytes of a number read back.
* `drop_table`: a table from its `i`-th record on.
* `setBits_eq_cons`: the lowest set bit of a word and the word with it cleared.
-/

namespace Sirius.Common

/-! ## Numbers in bytes -/

/-- The number whose little-endian bytes are `bs`. -/
def leValue : List UInt8 → ℕ
  | [] => 0
  | b :: bs => b.toNat + 256 * leValue bs

/-- The `w` little-endian bytes of `n`. -/
def leBytes : ℕ → ℕ → List UInt8
  | 0, _ => []
  | w + 1, n => UInt8.ofNat (n % 256) :: leBytes w (n / 256)

@[simp] theorem length_leBytes (w n : ℕ) : (leBytes w n).length = w := by
  induction w generalizing n with
  | zero => rfl
  | succ w ih => rw [leBytes, List.length_cons, ih]

theorem leValue_leBytes {w n : ℕ} (h : n < 256 ^ w) : leValue (leBytes w n) = n := by
  induction w generalizing n with
  | zero =>
    rw [pow_zero] at h
    rw [leBytes, leValue]
    omega
  | succ w ih =>
    have hdiv : n / 256 < 256 ^ w := Nat.div_lt_of_lt_mul (by rwa [← pow_succ'])
    have hbyte : (UInt8.ofNat (n % 256)).toNat = n % 256 :=
      UInt8.toNat_ofNat_of_lt' (Nat.mod_lt n (by norm_num))
    rw [leBytes, leValue, ih hdiv, hbyte]
    omega

theorem leValue_lt (bs : List UInt8) : leValue bs < 256 ^ bs.length := by
  induction bs with
  | nil => simp [leValue]
  | cons b bs ih =>
    have hb : b.toNat < 256 := b.toNat_lt
    rw [leValue, List.length_cons, pow_succ']
    omega

/-! ## Tables of records -/

section Records

variable {α β : Type*} {f : α → List β} {w : ℕ}

theorem length_flatMap_of_length (hf : ∀ a, (f a).length = w) (l : List α) :
    (l.flatMap f).length = l.length * w := by
  induction l with
  | nil => simp
  | cons a l ih => rw [List.flatMap_cons, List.length_append, ih, hf, List.length_cons]; ring

theorem drop_flatMap_of_length (hf : ∀ a, (f a).length = w) (l : List α) (i : ℕ) :
    (l.flatMap f).drop (i * w) = (l.drop i).flatMap f := by
  induction l generalizing i with
  | nil => simp
  | cons a l ih =>
    cases i with
    | zero => simp
    | succ i =>
      rw [List.flatMap_cons, List.drop_append, hf, List.drop_of_length_le (by rw [hf]; lia),
        show (i + 1) * w - w = i * w by lia, ih, List.nil_append, List.drop_succ_cons]

/-- A table from its `i`-th record on. -/
theorem drop_table (hf : ∀ a, (f a).length = w) {l : List α} {i : ℕ} (hi : i < l.length)
    (rest : List β) :
    (l.flatMap f ++ rest).drop (i * w) = f l[i] ++ ((l.drop (i + 1)).flatMap f ++ rest) := by
  have hle : i * w ≤ (l.flatMap f).length := by
    rw [length_flatMap_of_length hf]
    exact Nat.mul_le_mul_right w hi.le
  rw [List.drop_append_of_le_length hle, drop_flatMap_of_length hf,
    List.drop_eq_getElem_cons hi, List.flatMap_cons, List.append_assoc]

end Records

/-! ## Sorted blocks -/

/-- Sorted blocks under rising keys make a sorted list. -/
theorem blocks_sorted {α : Type*} {l : List α} (key : α → ℕ) (block : α → List ℕ) {w : ℕ}
    (hkeys : l.Pairwise fun a b => key a < key b) (hsorted : ∀ a ∈ l, (block a).Pairwise (· < ·))
    (hlt : ∀ a ∈ l, ∀ x ∈ block a, x < w) :
    (l.flatMap fun a => (block a).map (key a * w + ·)).Pairwise (· < ·) := by
  rw [List.pairwise_flatMap]
  constructor
  · intro a ha
    exact List.pairwise_map.mpr ((hsorted a ha).imp fun h => Nat.add_lt_add_left h _)
  · refine hkeys.imp_of_mem ?_
    intro a b ha hb hab x hx y hy
    obtain ⟨i, hi, rfl⟩ := List.mem_map.mp hx
    obtain ⟨j, hj, rfl⟩ := List.mem_map.mp hy
    have hi' := hlt a ha i hi
    calc key a * w + i < key a * w + w := by omega
      _ = (key a + 1) * w := by ring
      _ ≤ key b * w := Nat.mul_le_mul_right w hab
      _ ≤ key b * w + j := Nat.le_add_right _ _

theorem length_le_of_sorted {l : List ℕ} {n : ℕ} (hsorted : l.Pairwise (· < ·))
    (hlt : ∀ x ∈ l, x < n) : l.length ≤ n := by
  have hnodup : l.Nodup := hsorted.imp Nat.ne_of_lt
  have hsub : l.toFinset ⊆ Finset.range n := by
    intro x hx
    exact Finset.mem_range.mpr (hlt x (List.mem_toFinset.mp hx))
  have hcard := Finset.card_le_card hsub
  rwa [List.toFinset_card_of_nodup hnodup, Finset.card_range] at hcard

/-! ## Set bits -/

/-- The positions of the set bits among the low `n` bits of `w`, lowest first. -/
def setBits (n w : ℕ) : List ℕ := (List.range n).filter w.testBit

/-- The number of clear bits below the lowest set bit among the low `n` bits. -/
def lowestSet (n w : ℕ) : ℕ := (List.range n).findIdx w.testBit

theorem mem_setBits {n w i : ℕ} : i ∈ setBits n w ↔ i < n ∧ w.testBit i = true := by
  simp [setBits]

theorem setBits_sorted (n w : ℕ) : (setBits n w).Pairwise (· < ·) :=
  List.pairwise_lt_range.filter _

@[simp] theorem setBits_zero (n : ℕ) : setBits n 0 = [] := by
  simp [setBits]

/-- A word is an odd multiple of the power of its lowest set bit. -/
theorem exists_lowest {w : ℕ} (hw : w ≠ 0) : ∃ k m, w = 2 ^ (k + 1) * m + 2 ^ k := by
  obtain ⟨k, m, hm, rfl⟩ := Nat.exists_eq_two_pow_mul_odd hw
  obtain ⟨r, rfl⟩ := hm
  exact ⟨k, r, by ring⟩

theorem testBit_lowest (k m i : ℕ) :
    (2 ^ (k + 1) * m + 2 ^ k).testBit i = if i < k + 1 then decide (k = i) else
      m.testBit (i - (k + 1)) := by
  rw [Nat.testBit_two_pow_mul_add m (Nat.pow_lt_pow_right (by norm_num) (Nat.lt_succ_self k)),
    Nat.testBit_two_pow]

/-- Clearing the lowest set bit with `w & (w - 1)`. -/
theorem testBit_and_sub_one (k m i : ℕ) :
    ((2 ^ (k + 1) * m + 2 ^ k) &&& (2 ^ (k + 1) * m + 2 ^ k - 1)).testBit i =
      if i < k + 1 then false else m.testBit (i - (k + 1)) := by
  have hpos : 0 < 2 ^ k := Nat.two_pow_pos k
  have hlt : 2 ^ k - 1 < 2 ^ (k + 1) := by
    rw [pow_succ]
    omega
  rw [Nat.testBit_and, testBit_lowest, Nat.add_sub_assoc hpos,
    Nat.testBit_two_pow_mul_add m hlt, Nat.testBit_two_pow_sub_one]
  split_ifs with h
  · by_cases hki : k = i
    · subst hki
      simp
    · simp [hki]
  · simp

theorem lowestSet_eq {n k m : ℕ} (hk : k < n) : lowestSet n (2 ^ (k + 1) * m + 2 ^ k) = k := by
  rw [lowestSet, List.findIdx_eq (by simpa using hk)]
  constructor
  · simp [testBit_lowest]
  · intro j hj
    rw [List.getElem_range, testBit_lowest, if_pos (by omega)]
    simpa using (Nat.ne_of_lt hj).symm

/-- One turn of the loop that visits the set bits of a word. -/
theorem setBits_eq_cons {n w : ℕ} (hw : w ≠ 0) (hn : w < 2 ^ n) :
    setBits n w = lowestSet n w :: setBits n (w &&& (w - 1)) := by
  obtain ⟨k, m, rfl⟩ := exists_lowest hw
  have hk : k < n := (Nat.pow_lt_pow_iff_right (by norm_num)).mp
    (lt_of_le_of_lt (Nat.le_add_left (2 ^ k) _) hn)
  rw [lowestSet_eq hk]
  have hsorted : (k :: setBits n ((2 ^ (k + 1) * m + 2 ^ k) &&&
      (2 ^ (k + 1) * m + 2 ^ k - 1))).Pairwise (· < ·) := by
    refine List.pairwise_cons.mpr ⟨fun i hi => ?_, setBits_sorted _ _⟩
    have hbit := (mem_setBits.mp hi).2
    rw [testBit_and_sub_one] at hbit
    split_ifs at hbit
    omega
  refine List.Perm.eq_of_pairwise (fun a b _ _ hab hba => absurd hab (Nat.lt_asymm hba))
    (setBits_sorted _ _) hsorted ?_
  rw [List.perm_ext_iff_of_nodup ((setBits_sorted _ _).imp Nat.ne_of_lt)
    (hsorted.imp Nat.ne_of_lt)]
  intro i
  rw [List.mem_cons, mem_setBits, mem_setBits, testBit_lowest, testBit_and_sub_one]
  by_cases hi : i < k + 1
  · simp only [hi, if_true, decide_eq_true_eq, Bool.false_eq_true, and_false, or_false]
    omega
  · have hne : i ≠ k := by omega
    simp [hi, hne]

end Sirius.Common
