import Mathlib

/-!
# The first occurrence of a pattern

`std::string::find` over lists of any type, as the text before and after the first occurrence.

* `cutFirst_eq_none`, `eq_of_cutFirst`: nothing is found exactly when the pattern does not occur.
* `cutFirst_skip_of_not_mem`: text without the first character of the pattern is passed over.
* `Bracketed`, `Balanced`: a pattern such as `<Key>`, and text that leaves no bracket open. Such
  text and what comes after it are searched apart (`infix_append_iff`, `cutFirst_skip`), and a
  tag holds no other tag (`eq_of_infix_tag`).
* `cutFirst_append`: what is found in the front part of a text is what is found in the text.
-/

namespace Sirius.Common.Search

variable {α : Type*} [DecidableEq α]

/-- The text before and after the first occurrence of the pattern. -/
def cutFirst (pat : List α) : List α → Option (List α × List α)
  | [] => if pat = [] then some ([], []) else none
  | c :: s =>
    if pat <+: c :: s then some ([], (c :: s).drop pat.length)
    else (cutFirst pat s).map fun p => (c :: p.1, p.2)

variable {pat s t a b : List α}

theorem eq_of_cutFirst (h : cutFirst pat s = some (a, b)) : s = a ++ (pat ++ b) := by
  induction s generalizing a with
  | nil =>
    rw [cutFirst] at h
    split_ifs at h with hpat
    cases h
    rw [hpat]
    rfl
  | cons c s ih =>
    rw [cutFirst] at h
    split_ifs at h with hpat
    · cases h
      rw [List.nil_append, List.prefix_iff_eq_append.mp hpat]
    · obtain ⟨⟨a', b'⟩, hrest, heq⟩ := Option.map_eq_some_iff.mp h
      cases heq
      rw [ih hrest, List.cons_append]

theorem cutFirst_eq_none : cutFirst pat s = none ↔ ¬pat <:+: s := by
  induction s with
  | nil =>
    rw [cutFirst, List.infix_nil]
    split_ifs with hpat
    · simp [hpat]
    · simp [hpat]
  | cons c s ih =>
    rw [cutFirst, List.infix_cons_iff, not_or]
    split_ifs with hpat
    · simp [hpat]
    · rw [Option.map_eq_none_iff, ih]
      exact ⟨fun hnot => ⟨hpat, hnot⟩, fun hnot => hnot.2⟩

/-- The pattern at the front. -/
theorem cutFirst_self (pat s : List α) : cutFirst pat (pat ++ s) = some ([], s) := by
  cases hs : pat ++ s with
  | nil =>
    obtain ⟨rfl, rfl⟩ := List.append_eq_nil_iff.mp hs
    rfl
  | cons c rest =>
    have hprefix : pat <+: c :: rest := ⟨s, hs⟩
    rw [cutFirst, if_pos hprefix, ← hs, List.drop_left]

/-- Text at no place of which the pattern starts is passed over. -/
theorem cutFirst_skip_of_forall (h : ∀ l r, s = l ++ r → r ≠ [] → ¬pat <+: r ++ t) :
    cutFirst pat (s ++ t) = (cutFirst pat t).map fun p => (s ++ p.1, p.2) := by
  induction s with
  | nil =>
    rw [List.nil_append]
    cases cutFirst pat t <;> rfl
  | cons c s ih =>
    have hhead := h [] (c :: s) rfl (List.cons_ne_nil c s)
    rw [List.cons_append] at hhead ⊢
    rw [cutFirst, if_neg hhead, ih fun l r hs hr => h (c :: l) r (by rw [hs]; rfl) hr,
      Option.map_map]
    rfl

/-- Text without the first character of the pattern is passed over. -/
theorem cutFirst_skip_of_not_mem {x : α} (h : x ∉ s) :
    cutFirst (x :: pat) (s ++ t) =
      (cutFirst (x :: pat) t).map fun p => (s ++ p.1, p.2) := by
  refine cutFirst_skip_of_forall fun l r hs hr hprefix => ?_
  cases r with
  | nil => exact hr rfl
  | cons c r =>
    obtain ⟨rest, hrest⟩ := hprefix
    rw [List.cons_append, List.cons_append] at hrest
    obtain rfl := (List.cons.inj hrest).1
    exact h (hs ▸ List.mem_append_right l List.mem_cons_self)

/-- What is found in the front part of a text is what is found in the text. -/
theorem cutFirst_append (h : cutFirst pat s = some (a, b)) (t : List α) :
    cutFirst pat (s ++ t) = some (a, b ++ t) := by
  induction s generalizing a with
  | nil =>
    rw [cutFirst] at h
    split_ifs at h with hpat
    cases h
    subst hpat
    exact cutFirst_self [] t
  | cons c s ih =>
    rw [cutFirst] at h
    rw [List.cons_append, cutFirst]
    split_ifs at h with hpat
    · cases h
      rw [if_pos (hpat.trans ⟨t, List.cons_append⟩), ← List.cons_append,
        List.drop_append_of_le_length hpat.length_le]
    · obtain ⟨⟨a', b'⟩, hrest, heq⟩ := Option.map_eq_some_iff.mp h
      cases heq
      have hlength : pat.length ≤ (c :: s).length := by
        rw [eq_of_cutFirst hrest]
        simp only [List.length_cons, List.length_append]
        omega
      -- an occurrence at the front lies in the front part
      have hnot : ¬pat <+: c :: (s ++ t) := fun hfront =>
        hpat (List.prefix_of_prefix_length_le hfront ⟨t, List.cons_append⟩ hlength)
      rw [if_neg hnot, ih hrest, Option.map_some]

omit [DecidableEq α] in
/-- A text is cut in one way at the first place of a character. -/
theorem append_cons_inj {x : α} {s' t' : List α} (hs : x ∉ s) (hs' : x ∉ s')
    (h : s ++ x :: t = s' ++ x :: t') : s = s' ∧ t = t' := by
  rcases List.append_eq_append_iff.mp h with ⟨l, hl, hr⟩ | ⟨l, hl, hr⟩
  · cases l with
    | nil => exact ⟨by rw [hl, List.append_nil], (List.cons.inj hr).2⟩
    | cons y l =>
      obtain ⟨rfl, -⟩ := List.cons.inj hr
      exact absurd (hl ▸ List.mem_append_right s List.mem_cons_self) hs'
  · cases l with
    | nil => exact ⟨by rw [hl, List.append_nil], (List.cons.inj hr).2.symm⟩
    | cons y l =>
      obtain ⟨rfl, -⟩ := List.cons.inj hr
      exact absurd (hl ▸ List.mem_append_right s' List.mem_cons_self) hs

omit [DecidableEq α] in
/-- A character that occurs once is where the text is cut at it. -/
theorem append_cons_inj_of_once {x : α} {s' t' : List α} (hs : x ∉ s) (ht : x ∉ t)
    (h : s ++ x :: t = s' ++ x :: t') : s = s' ∧ t = t' := by
  refine append_cons_inj hs (fun hmem => ?_) h
  obtain ⟨l, r, rfl⟩ := List.append_of_mem hmem
  rw [List.append_assoc, List.cons_append] at h
  rcases List.append_eq_append_iff.mp h with ⟨m, -, hm⟩ | ⟨m, rfl, hm⟩
  · cases m with
    | nil =>
      obtain ⟨-, rfl⟩ := List.cons.inj hm
      exact ht (by simp)
    | cons y m =>
      obtain ⟨-, rfl⟩ := List.cons.inj hm
      exact ht (by simp)
  · cases m with
    | nil =>
      obtain ⟨-, rfl⟩ := List.cons.inj hm
      exact ht (by simp)
    | cons y m =>
      obtain ⟨rfl, -⟩ := List.cons.inj hm
      exact hs (by simp)

/-! ## Brackets -/

section Brackets

variable {lo hi : α}

/-- A pattern from an opening bracket to its only closing one. -/
def Bracketed (lo hi : α) (pat : List α) : Prop := ∃ body, pat = lo :: (body ++ [hi]) ∧ hi ∉ body

/-- Every opening bracket is followed by a closing one. -/
def Balanced (lo hi : α) (s : List α) : Prop := ∀ l m, s = l ++ lo :: m → hi ∈ m

omit [DecidableEq α] in
theorem balanced_of_not_mem (h : lo ∉ s) : Balanced lo hi s := by
  intro l m hs
  exact absurd (hs ▸ List.mem_append_right l List.mem_cons_self) h

omit [DecidableEq α] in
theorem Balanced.append (hs : Balanced lo hi s) (ht : Balanced lo hi t) :
    Balanced lo hi (s ++ t) := by
  intro l m heq
  rcases List.append_eq_append_iff.mp heq with ⟨l', hl, ht'⟩ | ⟨m', hs', hm⟩
  · exact ht l' m ht'
  · cases m' with
    | nil => exact ht [] m hm.symm
    | cons c m' =>
      rw [List.cons_append] at hm
      obtain ⟨rfl, rfl⟩ := List.cons.inj hm
      exact List.mem_append_left t (hs l m' hs')

omit [DecidableEq α] in
/-- One tag. -/
theorem balanced_tag (body : List α) (hbody : lo ∉ body) (hne : lo ≠ hi) :
    Balanced lo hi (lo :: (body ++ [hi])) := by
  intro l m heq
  cases l with
  | nil =>
    obtain ⟨-, rfl⟩ := List.cons.inj heq
    exact List.mem_append_right body List.mem_cons_self
  | cons c l =>
    obtain ⟨-, hrest⟩ := List.cons.inj heq
    have hmem : lo ∈ body ++ [hi] := hrest ▸ List.mem_append_right l List.mem_cons_self
    rcases List.mem_append.mp hmem with hmem | hmem
    · exact absurd hmem hbody
    · exact absurd (List.mem_singleton.mp hmem) hne

omit [DecidableEq α] in
/-- A pattern that starts in balanced text ends in it. -/
theorem isPrefix_of_balanced {l r : List α} (hpat : Bracketed lo hi pat) (hs : Balanced lo hi s)
    (heq : s = l ++ r) (hr : r ≠ []) (h : pat <+: r ++ t) : pat <+: r := by
  obtain ⟨body, rfl, hbody⟩ := hpat
  cases r with
  | nil => exact absurd rfl hr
  | cons c m =>
    obtain ⟨rest, hrest⟩ := h
    rw [List.cons_append, List.cons_append] at hrest
    obtain ⟨rfl, htail⟩ := List.cons.inj hrest
    have hm : hi ∈ m := hs l m heq
    refine List.cons_prefix_cons.mpr ⟨rfl, ?_⟩
    -- the closing bracket of the text comes no earlier than that of the pattern
    rcases List.append_eq_append_iff.mp htail with ⟨m', hm', -⟩ | ⟨b', hb', -⟩
    · exact ⟨m', hm'.symm⟩
    · have hshort : m <+: body ++ [hi] := ⟨b', hb'.symm⟩
      rcases List.prefix_concat_iff.mp hshort with heq | hpre
      · exact heq ▸ List.prefix_rfl
      · exact absurd (hpre.subset hm) hbody

omit [DecidableEq α] in
/-- A pattern lies in balanced text or in what comes after it. -/
theorem infix_append_iff (hpat : Bracketed lo hi pat) (hs : Balanced lo hi s) :
    pat <:+: s ++ t ↔ pat <:+: s ∨ pat <:+: t := by
  constructor
  · rintro ⟨l, r, heq⟩
    rw [List.append_assoc] at heq
    rcases List.append_eq_append_iff.mp heq with ⟨l', hs', hpr⟩ | ⟨m', hl, ht⟩
    · by_cases hnil : l' = []
      · subst hnil
        right
        rw [List.nil_append] at hpr
        exact ⟨[], r, by rw [List.nil_append, hpr]⟩
      · left
        have hfront : pat <+: l' ++ t := ⟨r, hpr⟩
        exact (isPrefix_of_balanced hpat hs hs' hnil hfront).isInfix.trans
          ⟨l, [], by rw [hs', List.append_nil]⟩
    · right
      exact ⟨m', r, by rw [List.append_assoc, ht]⟩
  · rintro (h | h)
    · exact h.trans (List.prefix_append s t).isInfix
    · exact h.trans (List.suffix_append s t).isInfix

/-- Balanced text without the pattern is passed over. -/
theorem cutFirst_skip (hpat : Bracketed lo hi pat) (hs : Balanced lo hi s) (hnot : ¬pat <:+: s) :
    cutFirst pat (s ++ t) = (cutFirst pat t).map fun p => (s ++ p.1, p.2) := by
  refine cutFirst_skip_of_forall fun l r heq hr hfront => hnot ?_
  exact (isPrefix_of_balanced hpat hs heq hr hfront).isInfix.trans
    ⟨l, [], by rw [heq, List.append_nil]⟩

omit [DecidableEq α] in
/-- A pattern in one tag is the tag. -/
theorem eq_of_infix_tag {body : List α} (hpat : Bracketed lo hi pat) (hlo : lo ∉ body)
    (hhi : hi ∉ body) (hne : lo ≠ hi) (h : pat <:+: lo :: (body ++ [hi])) :
    pat = lo :: (body ++ [hi]) := by
  obtain ⟨b, rfl, hb⟩ := hpat
  obtain ⟨l, r, heq⟩ := h
  cases l with
  | nil =>
    rw [List.nil_append, List.cons_append, List.append_assoc] at heq
    obtain ⟨hbody, -⟩ := append_cons_inj hb hhi (List.cons.inj heq).2
    rw [hbody]
  | cons c l =>
    rw [List.cons_append, List.cons_append, List.append_assoc] at heq
    have hmem : lo ∈ body ++ [hi] :=
      (List.cons.inj heq).2 ▸ List.mem_append_right l List.mem_cons_self
    rcases List.mem_append.mp hmem with hmem | hmem
    · exact absurd hmem hlo
    · exact absurd (List.mem_singleton.mp hmem) hne

end Brackets

end Sirius.Common.Search
