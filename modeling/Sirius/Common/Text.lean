import Mathlib

/-!
# Text as a list of characters

The operations that line-based text formats are read with, over lists of any type: `trim`,
`splitLast` at the last occurrence of a separator, and `splitAt2` at every occurrence of a
pair of characters; with what each gives back on text that was put together from pieces.

* `trim_eq_self`, `trim_append_left`, `trim_append_right`: trimming what is trimmed, or padded.
* `splitLast_append`, `splitLast_eq_some`: the last separator of a text.
* `splitPair_append`, `splitPair_pieces`: the pieces between pairs.
-/

namespace Sirius.Common.Text

variable {α : Type*}

/-! ## Trimming -/

section Trim

variable (ws : α → Bool)

/-- Without the blanks at either end. -/
def trim (s : List α) : List α := (s.dropWhile ws).rdropWhile ws

/-- Neither end is blank. -/
structure Trimmed (s : List α) : Prop where
  first : ∀ a, s.head? = some a → ws a = false
  last : ∀ a, s.getLast? = some a → ws a = false

variable {ws} {s t : List α}

theorem dropWhile_eq_self (h : ∀ a, s.head? = some a → ws a = false) : s.dropWhile ws = s := by
  cases s with
  | nil => rfl
  | cons a s => rw [List.dropWhile_cons_of_neg (by simp [h a rfl])]

theorem rdropWhile_eq_self (h : ∀ a, s.getLast? = some a → ws a = false) :
    s.rdropWhile ws = s := by
  rw [List.rdropWhile_eq_self_iff]
  intro hne
  rw [h _ (List.getLast?_eq_some_getLast hne)]
  exact Bool.false_ne_true

theorem trim_eq_self (h : Trimmed ws s) : trim ws s = s := by
  rw [trim, dropWhile_eq_self h.first, rdropWhile_eq_self h.last]

theorem head?_dropWhile (a : α) (h : (s.dropWhile ws).head? = some a) : ws a = false := by
  have := List.head?_dropWhile_not ws s
  rw [h] at this
  simpa using this

theorem trim_trimmed (ws : α → Bool) (s : List α) : Trimmed ws (trim ws s) := by
  constructor
  · intro a ha
    have hprefix : (s.dropWhile ws).rdropWhile ws <+: s.dropWhile ws := List.rdropWhile_prefix ..
    obtain ⟨rest, hrest⟩ := hprefix
    refine head?_dropWhile (s := s) a ?_
    rw [← hrest]
    rw [trim] at ha
    cases htrim : (s.dropWhile ws).rdropWhile ws with
    | nil => rw [htrim] at ha; cases ha
    | cons b l => rw [htrim] at ha; exact ha
  · intro a ha
    have hne : (s.dropWhile ws).rdropWhile ws ≠ [] := by
      intro hnil
      rw [trim, hnil] at ha
      cases ha
    have hlast := List.rdropWhile_last_not ws (s.dropWhile ws) hne
    rw [trim, List.getLast?_eq_some_getLast hne] at ha
    rw [← Option.some.inj ha]
    exact Bool.eq_false_iff.mpr hlast

/-- Trimming takes an infix of the text. -/
theorem trim_isInfix (ws : α → Bool) (s : List α) : trim ws s <:+: s :=
  (List.rdropWhile_prefix ..).isInfix.trans (List.dropWhile_suffix ..).isInfix

theorem trim_append_left (h : ∀ a ∈ t, ws a = true) : trim ws (t ++ s) = trim ws s := by
  rw [trim, List.dropWhile_append_of_pos h, trim]

theorem trim_append_right (h : ∀ a ∈ t, ws a = true) : trim ws (s ++ t) = trim ws s := by
  induction t using List.reverseRecOn generalizing s with
  | nil => rw [List.append_nil]
  | append_singleton t a ih =>
    rw [← List.append_assoc, ← ih (s := s) fun b hb => h b (List.mem_append_left _ hb)]
    have ha := h a (List.mem_append_right _ List.mem_cons_self)
    generalize s ++ t = u
    by_cases hall : ∀ b ∈ u, ws b = true
    · have hboth : ∀ b ∈ u ++ [a], ws b = true := by
        intro b hb
        rcases List.mem_append.mp hb with hb | hb
        · exact hall b hb
        · rw [List.mem_singleton.mp hb, ha]
      rw [trim, trim, List.dropWhile_eq_nil_iff.mpr hboth, List.dropWhile_eq_nil_iff.mpr hall]
    · have hne : u.dropWhile ws ≠ [] := fun hnil => hall (List.dropWhile_eq_nil_iff.mp hnil)
      have happend : (u ++ [a]).dropWhile ws = u.dropWhile ws ++ [a] := by
        rw [List.dropWhile_append, if_neg (by simpa using hne)]
      rw [trim, trim, happend, List.rdropWhile_concat_pos _ _ _ ha]

/-- A text is what trimming leaves, between blanks. -/
theorem exists_pad (ws : α → Bool) (s : List α) :
    ∃ l r, s = l ++ trim ws s ++ r ∧ (∀ a ∈ l, ws a = true) ∧ ∀ a ∈ r, ws a = true := by
  refine ⟨s.takeWhile ws, (s.dropWhile ws).rtakeWhile ws, ?_,
    fun a ha => List.mem_takeWhile_imp ha, fun a ha => List.mem_rtakeWhile_imp ha⟩
  rw [trim, List.append_assoc, List.rdropWhile_append_rtakeWhile, List.takeWhile_append_dropWhile]

theorem trim_ne_nil (h : ∃ a ∈ s, ws a = false) : trim ws s ≠ [] := by
  obtain ⟨a, ha, hws⟩ := h
  obtain ⟨l, r, hs, hl, hr⟩ := exists_pad ws s
  intro hnil
  rw [hnil, List.append_nil] at hs
  rw [hs] at ha
  rcases List.mem_append.mp ha with ha | ha
  · rw [hl a ha] at hws
    cases hws
  · rw [hr a ha] at hws
    cases hws

theorem rdropWhile_append (h : ∃ a ∈ t, ws a = false) :
    (s ++ t).rdropWhile ws = s ++ t.rdropWhile ws := by
  obtain ⟨a, ha, hws⟩ := h
  have hne : (t.reverse.dropWhile ws).isEmpty = false := by
    rw [List.isEmpty_eq_false_iff, Ne, List.dropWhile_eq_nil_iff]
    intro hall
    rw [hall a (List.mem_reverse.mpr ha)] at hws
    cases hws
  simp only [List.rdropWhile, List.reverse_append, List.dropWhile_append, hne]
  simp

/-- Only the end of a text is trimmed, when it starts with something else. -/
theorem trim_append (hs : ∀ a, (s ++ t).head? = some a → ws a = false)
    (ht : ∃ a ∈ t, ws a = false) : trim ws (s ++ t) = s ++ t.rdropWhile ws := by
  rw [trim, dropWhile_eq_self hs, rdropWhile_append ht]

theorem trim_rdropWhile (ws : α → Bool) (s : List α) : trim ws (s.rdropWhile ws) = trim ws s := by
  conv_rhs => rw [← List.rdropWhile_append_rtakeWhile (p := ws) (l := s)]
  exact (trim_append_right fun a ha => List.mem_rtakeWhile_imp ha).symm

end Trim

/-! ## The last occurrence of a separator -/

section Last

variable [DecidableEq α]

/-- The text before and after the last `c`. -/
def splitLast (c : α) : List α → Option (List α × List α)
  | [] => none
  | a :: s =>
    match splitLast c s with
    | some (l, r) => some (a :: l, r)
    | none => if a = c then some ([], s) else none

variable {c : α} {s l r : List α}

theorem splitLast_eq_none : splitLast c s = none ↔ c ∉ s := by
  induction s with
  | nil => simp [splitLast]
  | cons a s ih =>
    rw [splitLast]
    cases hs : splitLast c s with
    | some p =>
      have hmem : c ∈ s := by
        by_contra hc
        rw [ih.mpr hc] at hs
        cases hs
      simp [hmem]
    | none =>
      have hmem := ih.mp hs
      by_cases ha : a = c
      · simp [ha]
      · simp [ha, hmem, Ne.symm ha]

theorem splitLast_append (h : c ∉ r) : splitLast c (l ++ c :: r) = some (l, r) := by
  induction l with
  | nil => rw [List.nil_append, splitLast, splitLast_eq_none.mpr h]; simp
  | cons a l ih => rw [List.cons_append, splitLast, ih]

theorem splitLast_eq_some (h : splitLast c s = some (l, r)) : s = l ++ c :: r ∧ c ∉ r := by
  induction s generalizing l with
  | nil => cases h
  | cons a s ih =>
    rw [splitLast] at h
    cases hs : splitLast c s with
    | some p =>
      obtain ⟨l', r'⟩ := p
      rw [hs] at h
      obtain ⟨rfl, rfl⟩ := Prod.mk.inj (Option.some.inj h)
      obtain ⟨rfl, hr⟩ := ih hs
      exact ⟨rfl, hr⟩
    | none =>
      rw [hs] at h
      simp only at h
      split_ifs at h with ha
      obtain ⟨rfl, rfl⟩ := Prod.mk.inj (Option.some.inj h)
      exact ⟨by rw [ha]; rfl, splitLast_eq_none.mp hs⟩

end Last

/-! ## Pieces between separators -/

/-- A piece of a split text is an infix of it, without the separator. -/
theorem mem_splitOn [DecidableEq α] {c : α} {s p : List α} (h : p ∈ s.splitOn c) :
    p <:+: s ∧ c ∉ p := by
  induction hn : s.length using Nat.strong_induction_on generalizing s with
  | _ n ih =>
    by_cases hs : c ∈ s
    · obtain ⟨a, b, rfl, -⟩ := List.eq_append_cons_of_mem hs
      rw [List.length_append, List.length_cons] at hn
      rw [List.splitOn_append_cons_self, List.mem_append] at h
      rcases h with h | h
      · obtain ⟨hpart, hc⟩ := ih a.length (by omega) h rfl
        exact ⟨hpart.trans (List.prefix_append _ _).isInfix, hc⟩
      · obtain ⟨hpart, hc⟩ := ih b.length (by omega) h rfl
        exact ⟨hpart.trans ⟨a ++ [c], [], by simp⟩, hc⟩
    · rw [List.splitOn_eq_singleton hs, List.mem_singleton] at h
      rw [h]
      exact ⟨List.infix_rfl, hs⟩

/-! ## Pairs of characters -/

/-- The pair `c d` occurs nowhere. -/
def NoPair (c d : α) (s : List α) : Prop := ¬[c, d] <:+: s

theorem NoPair.of_isInfix {c d : α} {s t : List α} (h : NoPair c d s) (ht : t <:+: s) :
    NoPair c d t :=
  fun hpair => h (hpair.trans ht)

theorem NoPair.tail {c d a : α} {s : List α} (h : NoPair c d (a :: s)) : NoPair c d s :=
  h.of_isInfix (List.suffix_cons a s).isInfix

theorem noPair_cons {c d a : α} {s : List α} (h : NoPair c d s)
    (hhead : a = c → s.head? ≠ some d) : NoPair c d (a :: s) := by
  intro hpair
  rcases List.infix_cons_iff.mp hpair with hprefix | hpart
  · obtain ⟨rest, hrest⟩ := hprefix
    rw [List.cons_append, List.cons_append, List.nil_append] at hrest
    obtain ⟨rfl, rfl⟩ := List.cons.inj hrest
    exact hhead rfl rfl
  · exact h hpart

/-- A separator that is not the second character keeps the pair out. -/
theorem noPair_append {c d x : α} {s t : List α} (hs : NoPair c d s) (ht : NoPair c d (x :: t))
    (hx : x ≠ d) : NoPair c d (s ++ x :: t) := by
  induction s with
  | nil => exact ht
  | cons a s ih =>
    rw [List.cons_append]
    refine noPair_cons (ih hs.tail) fun hac => ?_
    cases s with
    | nil => simpa using hx
    | cons b s =>
      rw [List.cons_append, List.head?_cons]
      rintro hbd
      obtain rfl := Option.some.inj hbd
      exact hs ⟨[], s, by rw [hac]; rfl⟩

theorem noPair_of_not_mem {c d : α} {s : List α} (h : c ∉ s) : NoPair c d s :=
  fun hpair => h (hpair.subset List.mem_cons_self)

section Pair

variable [DecidableEq α] (c d : α)

/-- The pieces of the text between the pairs `c d`, found from the left; nothing comes
after a pair at the end. -/
def splitPair : List α → List (List α)
  | [] => [[]]
  | [a] => [[a]]
  | a :: b :: s =>
    if a = c ∧ b = d then [] :: if s = [] then [] else splitPair s
    else match splitPair (b :: s) with
      | [] => [[a]]
      | p :: ps => (a :: p) :: ps

variable {c d} {s t : List α}

theorem splitPair_of_noPair (h : NoPair c d s) : splitPair c d s = [s] := by
  induction s with
  | nil => rfl
  | cons a s ih =>
    cases s with
    | nil => rfl
    | cons b s =>
      have hne : ¬(a = c ∧ b = d) := by
        rintro ⟨rfl, rfl⟩
        exact h ⟨[], s, rfl⟩
      rw [splitPair, if_neg hne, ih h.tail]

/-- The first piece, of a text that has a pair after it. -/
theorem splitPair_append (h : NoPair c d s) (hcd : c ≠ d) (ht : t ≠ []) :
    splitPair c d (s ++ c :: d :: t) = s :: splitPair c d t := by
  induction s with
  | nil => rw [List.nil_append, splitPair, if_pos ⟨rfl, rfl⟩, if_neg ht]
  | cons a s ih =>
    have hrest := ih h.tail
    cases s with
    | nil =>
      have hne : ¬(a = c ∧ c = d) := fun hac => hcd hac.2
      rw [List.nil_append] at hrest
      rw [List.cons_append, List.nil_append, splitPair, if_neg hne, hrest]
    | cons b s =>
      have hne : ¬(a = c ∧ b = d) := by
        rintro ⟨rfl, rfl⟩
        exact h ⟨[], s, rfl⟩
      rw [List.cons_append] at hrest ⊢
      rw [List.cons_append, splitPair, if_neg hne, hrest]

theorem splitPair_ne_nil (s : List α) : splitPair c d s ≠ [] := by
  match s with
  | [] => simp [splitPair]
  | [a] => simp [splitPair]
  | a :: b :: s =>
    rw [splitPair]
    split_ifs
    · simp
    · simp
    · split <;> simp

theorem splitPair_head {p : List α} {ps : List (List α)} (h : splitPair c d s = p :: ps) :
    p <+: s := by
  induction s generalizing p ps with
  | nil =>
    obtain ⟨rfl, -⟩ := List.cons.inj h
    exact List.prefix_rfl
  | cons a s ih =>
    cases s with
    | nil =>
      obtain ⟨rfl, -⟩ := List.cons.inj h
      exact List.prefix_rfl
    | cons b s =>
      rw [splitPair] at h
      by_cases hab : a = c ∧ b = d
      · rw [if_pos hab] at h
        obtain ⟨rfl, -⟩ := List.cons.inj h
        exact List.nil_prefix
      · rw [if_neg hab] at h
        cases hrest : splitPair c d (b :: s) with
        | nil => exact absurd hrest (splitPair_ne_nil _)
        | cons q qs =>
          rw [hrest] at h
          obtain ⟨rfl, -⟩ := List.cons.inj h
          exact List.cons_prefix_cons.mpr ⟨rfl, ih hrest⟩

/-- Every piece is an infix of the text, and has no pair. -/
theorem splitPair_pieces (s : List α) : ∀ p ∈ splitPair c d s, p <:+: s ∧ NoPair c d p := by
  have hshort : ∀ p : List α, p.length < 2 → NoPair c d p := by
    intro p hp hpair
    have := hpair.length_le
    simp only [List.length_cons, List.length_nil] at this
    omega
  induction s using splitPair.induct c d with
  | case1 | case2 _ =>
    intro p hp
    obtain rfl := List.mem_singleton.mp hp
    exact ⟨List.infix_rfl, hshort _ (by simp)⟩
  | case3 a b s hab ih =>
    intro p hp
    rw [splitPair, if_pos hab, List.mem_cons] at hp
    rcases hp with rfl | hp
    · exact ⟨List.nil_infix, hshort _ (by simp)⟩
    · split_ifs at hp with hs
      · cases hp
      · obtain ⟨hpart, hpair⟩ := ih p hp
        exact ⟨hpart.trans ⟨[a, b], [], by simp⟩, hpair⟩
  | case4 a b s hab hnil => exact absurd hnil (splitPair_ne_nil _)
  | case5 a b s hab q qs hrest ih =>
    intro p hp
    rw [splitPair, if_neg hab, hrest, List.mem_cons] at hp
    rw [hrest] at ih
    rcases hp with rfl | hp
    · obtain ⟨-, hpair⟩ := ih q List.mem_cons_self
      have hprefix := splitPair_head hrest
      refine ⟨(List.cons_prefix_cons.mpr ⟨rfl, hprefix⟩).isInfix, noPair_cons hpair ?_⟩
      intro hac hd
      obtain ⟨rest, hq⟩ := hprefix
      cases q with
      | nil => cases hd
      | cons x q =>
        obtain ⟨rfl, -⟩ := List.cons.inj hq
        exact hab ⟨hac, Option.some.inj hd⟩
    · obtain ⟨hpart, hpair⟩ := ih p (List.mem_cons_of_mem _ hp)
      exact ⟨hpart.trans (List.suffix_cons a _).isInfix, hpair⟩

end Pair

end Sirius.Common.Text
