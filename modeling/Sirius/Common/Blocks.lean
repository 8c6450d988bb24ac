import Mathlib

/-!
# Blocks of a flat buffer

A buffer is cut into blocks of one size. What is read and written inside a block is read and written
in the flat buffer, at the block's start plus the offset.

* `slice`, `splice`: reading and overwriting a part of a list.
* `slice_flatten`, `splice_flatten`: the same part in a block and in the flat buffer.
* `slice_add`, `splice_append`: parts one after the other.
* `div_bump`, `mod_bump`: a position and its block, when it moves inside the block.
-/

namespace Sirius.Common.Blocks

variable {α : Type*}

/-- The `n` elements at a position. -/
def slice (l : List α) (pos n : ℕ) : List α := (l.drop pos).take n

/-- The elements at a position are overwritten. -/
def splice (l : List α) (pos : ℕ) (xs : List α) : List α :=
  l.take pos ++ (xs ++ l.drop (pos + xs.length))

variable {pos n : ℕ}

theorem length_splice {l xs : List α} (h : pos + xs.length ≤ l.length) :
    (splice l pos xs).length = l.length := by
  unfold splice
  rw [List.length_append, List.length_append, List.length_take, List.length_drop]
  omega

theorem splice_nil (l : List α) (pos : ℕ) : splice l pos [] = l := by
  unfold splice
  rw [List.nil_append, List.length_nil, Nat.add_zero, List.take_append_drop]

theorem slice_add (l : List α) (pos m n : ℕ) :
    slice l pos (m + n) = slice l pos m ++ slice l (pos + m) n := by
  unfold slice
  rw [List.take_add, List.drop_drop]

/-- Two parts are overwritten one after the other. -/
theorem splice_append {l xs : List α} (ys : List α) (h : pos + xs.length ≤ l.length) :
    splice (splice l pos xs) (pos + xs.length) ys = splice l pos (xs ++ ys) := by
  have htake : (l.take pos).length = pos := by
    rw [List.length_take]
    omega
  have hfront : (splice l pos xs).take (pos + xs.length) = l.take pos ++ xs := by
    unfold splice
    rw [← List.append_assoc, List.take_left' (by rw [List.length_append, htake])]
  have hback : (splice l pos xs).drop (pos + xs.length + ys.length)
      = l.drop (pos + (xs ++ ys).length) := by
    unfold splice
    rw [← List.append_assoc, ← List.drop_drop,
      List.drop_left' (by rw [List.length_append, htake]), List.drop_drop, List.length_append,
      Nat.add_assoc]
  show (splice l pos xs).take (pos + xs.length) ++ (ys ++ _) = _
  rw [hfront, hback]
  unfold splice
  rw [List.append_assoc, List.append_assoc]

/-! ## Blocks -/

variable {w i : ℕ} {blocks : List (List α)}

variable {b xs : List α}

/-- The flat buffer around a block. -/
theorem flatten_split (h : ∀ b ∈ blocks, b.length = w) (hb : blocks[i]? = some b) :
    ∃ front back, blocks.flatten = front ++ (b ++ back) ∧ front.length = i * w ∧
      ∀ b', (blocks.set i b').flatten = front ++ (b' ++ back) := by
  obtain ⟨hi, rfl⟩ := List.getElem?_eq_some_iff.mp hb
  refine ⟨(blocks.take i).flatten, (blocks.drop (i + 1)).flatten, ?_, ?_, fun b' => ?_⟩
  · conv_lhs => rw [← List.take_append_drop i blocks]
    rw [List.flatten_append, List.drop_eq_getElem_cons hi, List.flatten_cons]
  · rw [List.length_flatten, List.map_congr_left (g := fun _ => w)
      fun b hb => h b (List.mem_of_mem_take hb)]
    rw [List.map_const', List.sum_replicate, List.length_take, Nat.min_eq_left hi.le]
    rfl
  · rw [List.set_eq_take_cons_drop b' hi, List.flatten_append, List.flatten_cons]

theorem slice_flatten (h : ∀ b ∈ blocks, b.length = w) (hb : blocks[i]? = some b) {off n : ℕ}
    (hn : off + n ≤ w) : slice blocks.flatten (i * w + off) n = slice b off n := by
  obtain ⟨front, back, heq, hlen, -⟩ := flatten_split h hb
  have hb' := h b (List.mem_of_getElem? hb)
  unfold slice
  rw [heq, ← hlen, ← List.drop_drop, List.drop_left, List.drop_append_of_le_length (by omega),
    List.take_append_of_le_length (by rw [List.length_drop]; omega)]

theorem splice_flatten (h : ∀ b ∈ blocks, b.length = w) (hb : blocks[i]? = some b) {off : ℕ}
    (hn : off + xs.length ≤ w) :
    (blocks.set i (splice b off xs)).flatten = splice blocks.flatten (i * w + off) xs := by
  obtain ⟨front, back, heq, hlen, hset⟩ := flatten_split h hb
  have hb' := h b (List.mem_of_getElem? hb)
  rw [hset, heq]
  unfold splice
  rw [← hlen, List.take_length_add_append, List.take_append_of_le_length (by omega),
    Nat.add_assoc, List.drop_length_add_append, List.drop_append_of_le_length (by omega)]
  simp only [List.append_assoc]

/-! ## Positions -/

theorem div_bump (hw : 0 < w) (h : pos % w + n ≤ w) :
    (pos + n) / w = if pos % w + n = w then pos / w + 1 else pos / w := by
  have hpos := Nat.div_add_mod pos w
  have hsplit : pos + n = w * (pos / w) + (pos % w + n) := by omega
  rw [hsplit, Nat.mul_add_div hw]
  split_ifs with heq
  · rw [heq, Nat.div_self hw]
  · rw [Nat.div_eq_of_lt (show pos % w + n < w by omega), Nat.add_zero]

theorem mod_bump (h : pos % w + n ≤ w) :
    (pos + n) % w = if pos % w + n = w then 0 else pos % w + n := by
  rw [← Nat.mod_add_mod]
  split_ifs with heq
  · rw [heq, Nat.mod_self]
  · exact Nat.mod_eq_of_lt (by omega)

/-- An aligned element lies in one block. -/
theorem mod_add_le_of_dvd (hw : 0 < w) (hn : n ∣ w) (hpos : n ∣ pos) : pos % w + n ≤ w := by
  obtain ⟨q, rfl⟩ := hn
  obtain ⟨t, rfl⟩ := hpos
  rw [Nat.mul_mod_mul_left]
  have hq : 0 < q := Nat.pos_of_mul_pos_left hw
  have hlt := Nat.mod_lt t hq
  calc n * (t % q) + n = n * (t % q + 1) := by ring
    _ ≤ n * q := Nat.mul_le_mul_left n hlt

end Sirius.Common.Blocks
