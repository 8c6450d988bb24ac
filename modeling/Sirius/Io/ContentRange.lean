import Mathlib

/-!
# The numbers of a Content-Range header

Model of `content_range_start` and `content_range_total`
(src/io/rest/rest_reactor.cpp:361-383, 546-571). The header is the text that the server sent,
`bytes <first>-<last>/<total>`; both functions add its digits up in a `size_t`.

* `FirstPosition`, `CompleteLength`: the numbers that are written in a header, of any size.
* `contentRangeStart_eq_some`, `contentRangeTotal_eq_some`: what is returned is the number that
  is written, modulo `2^64`.
* `content_range_exact_iff`: it is the number itself exactly when that fits in 64 bits. The
  parser of a listing guards the same sum (src/io/rest/s3/list_parser.cpp:117-121).
-/

namespace Sirius.Io.ContentRange

/-! ## The two functions -/

def isBlank (c : Char) : Bool := c = ' ' || c = '\t'

/-- Behind the unit, which is compared without regard to case, and the blanks after it. -/
def afterUnit (cr : List Char) : Option (List Char) :=
  if cr.length < 5 then none
  else if (cr.take 5).map Char.toLower ≠ "bytes".toList then none
  else some ((cr.drop 5).dropWhile isBlank)

/-- The loop over the digits: what they add up to in a `size_t`, and the rest of the text. -/
def digitLoop : ℕ → List Char → ℕ × List Char
  | value, [] => (value, [])
  | value, c :: rest =>
    if c.isDigit then digitLoop ((value * 10 + (c.toNat - 48)) % 2 ^ 64) rest else (value, c :: rest)

/-- `content_range_start` (lines 361–383). -/
def contentRangeStart (cr : List Char) : Option ℕ := do
  let sv ← afterUnit cr
  if !sv.head?.any Char.isDigit then none
  else
    let (value, rest) := digitLoop 0 sv
    if rest.head? = some '-' then some value else none

/-- `content_range_total` (lines 546–571). -/
def contentRangeTotal (cr : List Char) : Option ℕ := do
  let sv ← afterUnit cr
  if !sv.head?.any Char.isDigit then none
  else
    match sv.dropWhile (· ≠ '/') with
    | [] => none
    | _ :: total => if total.head?.any Char.isDigit then some (digitLoop 0 total).1 else none

/-! ## What is written in a header -/

/-- The number that decimal digits write. -/
def decimal (digits : List Char) : ℕ := Nat.ofDigitChars 10 digits 0

/-- A run of digits that does not go on. -/
structure Digits (digits rest : List Char) : Prop where
  nonempty : digits ≠ []
  digits : ∀ c ∈ digits, c.isDigit = true
  ends : rest.head?.any Char.isDigit = false

/-- The unit, in any case, and blanks. -/
structure UnitPart (unit blanks : List Char) : Prop where
  unit : unit.map Char.toLower = "bytes".toList
  blanks : ∀ c ∈ blanks, isBlank c = true

/-- `n` is the first-byte position of the header. -/
def FirstPosition (cr : List Char) (n : ℕ) : Prop :=
  ∃ unit blanks digits rest, cr = unit ++ (blanks ++ (digits ++ '-' :: rest)) ∧
    UnitPart unit blanks ∧ Digits digits ('-' :: rest) ∧ decimal digits = n

variable {digits rest sv cr : List Char}

/-- `n` is the complete length of the header: the number behind the first slash, where a range
    starts with a digit. -/
def CompleteLength (cr : List Char) (n : ℕ) : Prop :=
  ∃ unit blanks range digits rest, cr = unit ++ (blanks ++ (range ++ '/' :: (digits ++ rest))) ∧
    UnitPart unit blanks ∧ range.head?.any Char.isDigit = true ∧ '/' ∉ range ∧
    Digits digits rest ∧ decimal digits = n

/-! ## The loop and the cuts -/

theorem takeWhile_digits (h : Digits digits rest) :
    (digits ++ rest).takeWhile Char.isDigit = digits ∧
      (digits ++ rest).dropWhile Char.isDigit = rest := by
  have hrest : rest.takeWhile Char.isDigit = [] ∧ rest.dropWhile Char.isDigit = rest := by
    cases rest with
    | nil => exact ⟨rfl, rfl⟩
    | cons c rest =>
      have hc : c.isDigit = false := h.ends
      exact ⟨List.takeWhile_cons_of_neg (by simp [hc]), List.dropWhile_cons_of_neg (by simp [hc])⟩
  rw [List.takeWhile_append_of_pos h.digits, List.dropWhile_append_of_pos h.digits, hrest.1,
    hrest.2, List.append_nil]
  exact ⟨rfl, rfl⟩

theorem digits_takeWhile (h : sv.head?.any Char.isDigit = true) :
    Digits (sv.takeWhile Char.isDigit) (sv.dropWhile Char.isDigit) where
  nonempty := by
    cases sv with
    | nil => cases h
    | cons c sv =>
      rw [List.takeWhile_cons_of_pos (show c.isDigit = true from h)]
      exact List.cons_ne_nil _ _
  digits c hc := List.mem_takeWhile_imp hc
  ends := by
    have hnot := List.head?_dropWhile_not Char.isDigit sv
    cases hhead : (sv.dropWhile Char.isDigit).head? with
    | none => rfl
    | some c =>
      rw [hhead] at hnot
      simpa using hnot

/-- The loop reads the digits up to the first other character, modulo `2^64`. -/
theorem digitLoop_eq (value : ℕ) (s : List Char) (hvalue : value < 2 ^ 64) :
    digitLoop value s = (Nat.ofDigitChars 10 (s.takeWhile Char.isDigit) value % 2 ^ 64,
      s.dropWhile Char.isDigit) := by
  induction s generalizing value with
  | nil =>
    rw [digitLoop, List.takeWhile_nil, List.dropWhile_nil, Nat.ofDigitChars_nil,
      Nat.mod_eq_of_lt hvalue]
  | cons c s ih =>
    rw [digitLoop]
    by_cases hc : c.isDigit = true
    · rw [if_pos hc, ih _ (Nat.mod_lt _ (by norm_num)), List.takeWhile_cons_of_pos hc,
        List.dropWhile_cons_of_pos hc, Nat.ofDigitChars_cons]
      congr 1
      -- the wrapped sum and the sum itself differ by a multiple of 2^64, also after the rest
      have hmod : ∀ a : ℕ, Nat.ofDigitChars 10 (s.takeWhile Char.isDigit) (a % 2 ^ 64) % 2 ^ 64 =
          Nat.ofDigitChars 10 (s.takeWhile Char.isDigit) a % 2 ^ 64 := by
        intro a
        generalize s.takeWhile Char.isDigit = digits
        have hsplit : ∀ b, Nat.ofDigitChars 10 digits b =
            10 ^ digits.length * b + Nat.ofDigitChars 10 digits 0 :=
          fun b => Nat.ofDigitChars_eq_ofDigitChars_zero
        rw [hsplit (a % 2 ^ 64), hsplit a]
        exact Nat.ModEq.add_right _ (Nat.ModEq.mul_left _ (Nat.mod_modEq a _))
      rw [hmod, Nat.mul_comm value 10]
      rfl
    · rw [if_neg hc, List.takeWhile_cons_of_neg hc, List.dropWhile_cons_of_neg hc,
        Nat.ofDigitChars_nil, Nat.mod_eq_of_lt hvalue]

theorem isBlank_of_isDigit {c : Char} (h : c.isDigit = true) : isBlank c = false := by
  rw [isBlank, Bool.or_eq_false_iff]
  constructor <;> rw [decide_eq_false_iff_not] <;> rintro rfl <;> cases h

/-- The text behind the unit and the blanks, when it starts with a digit. -/
theorem afterUnit_eq_some (hdigit : sv.head?.any Char.isDigit = true) :
    afterUnit cr = some sv ↔ ∃ unit blanks, cr = unit ++ (blanks ++ sv) ∧ UnitPart unit blanks := by
  constructor
  · intro h
    unfold afterUnit at h
    split_ifs at h with hlength hunit
    cases h
    refine ⟨cr.take 5, (cr.drop 5).takeWhile isBlank, ?_, not_not.mp hunit,
      fun c hc => List.mem_takeWhile_imp hc⟩
    rw [List.takeWhile_append_dropWhile, List.take_append_drop]
  · rintro ⟨unit, blanks, rfl, hunit⟩
    have hlength : unit.length = 5 := by
      have := congrArg List.length hunit.unit
      rwa [List.length_map] at this
    have hsv : sv.dropWhile isBlank = sv := by
      cases sv with
      | nil => rfl
      | cons c sv =>
        rw [List.dropWhile_cons_of_neg]
        simp [isBlank_of_isDigit (show c.isDigit = true from hdigit)]
    unfold afterUnit
    rw [if_neg (by rw [List.length_append]; omega), List.take_left' hlength,
      List.drop_left' hlength, if_neg (not_not.mpr hunit.unit),
      List.dropWhile_append_of_pos hunit.blanks, hsv]

theorem head?_digits (h : Digits digits rest) (more : List Char) :
    (digits ++ more).head?.any Char.isDigit = true := by
  cases digits with
  | nil => exact absurd rfl h.nonempty
  | cons c digits => exact h.digits c List.mem_cons_self

theorem head?_range {range : List Char} (h : range.head?.any Char.isDigit = true)
    (more : List Char) : (range ++ more).head?.any Char.isDigit = true := by
  cases range with
  | nil => cases h
  | cons c range => exact h

/-- The text from the first slash on. -/
theorem dropWhile_range {range : List Char} (h : '/' ∉ range) (more : List Char) :
    (range ++ '/' :: more).dropWhile (· ≠ '/') = '/' :: more := by
  rw [List.dropWhile_append_of_pos, List.dropWhile_cons_of_neg (by simp)]
  intro c hc
  rw [decide_eq_true_eq]
  rintro rfl
  exact h hc

/-! ## What is returned -/

/-- **The start is the first-byte position, modulo `2^64`.** -/
theorem contentRangeStart_eq_some {v : ℕ} :
    contentRangeStart cr = some v ↔ ∃ n, FirstPosition cr n ∧ v = n % 2 ^ 64 := by
  constructor
  · intro h
    obtain ⟨sv, hsv, hsome⟩ := Option.bind_eq_some_iff.mp h
    rw [digitLoop_eq 0 sv (by norm_num)] at hsome
    split_ifs at hsome with hdigit
    dsimp only at hsome
    split_ifs at hsome with hdash
    simp only [Bool.not_eq_true', Bool.not_eq_false] at hdigit
    obtain ⟨unit, blanks, hcr, hunit⟩ := (afterUnit_eq_some hdigit).mp hsv
    obtain ⟨rest, hrest⟩ : ∃ rest, sv.dropWhile Char.isDigit = '-' :: rest := by
      cases hdrop : sv.dropWhile Char.isDigit with
      | nil => rw [hdrop] at hdash; cases hdash
      | cons c rest =>
        rw [hdrop] at hdash
        cases hdash
        exact ⟨rest, rfl⟩
    have hdigits := digits_takeWhile hdigit
    rw [hrest] at hdigits
    refine ⟨decimal (sv.takeWhile Char.isDigit), ⟨unit, blanks, sv.takeWhile Char.isDigit, rest,
      ?_, hunit, hdigits, rfl⟩, (Option.some.inj hsome).symm⟩
    rw [← hrest, List.takeWhile_append_dropWhile, hcr]
  · rintro ⟨n, ⟨unit, blanks, digits, rest, rfl, hunit, hdigits, rfl⟩, rfl⟩
    have hhead := head?_digits hdigits ('-' :: rest)
    obtain ⟨htake, hdrop⟩ := takeWhile_digits hdigits
    unfold contentRangeStart
    rw [(afterUnit_eq_some hhead).mpr ⟨unit, blanks, rfl, hunit⟩]
    simp only [Option.bind_eq_bind, Option.bind_some, hhead, Bool.not_true, Bool.false_eq_true,
      if_false, digitLoop_eq 0 (digits ++ '-' :: rest) (by norm_num), htake, hdrop,
      List.head?_cons, if_true]
    rfl

/-- **The total is the complete length, modulo `2^64`.** -/
theorem contentRangeTotal_eq_some {v : ℕ} :
    contentRangeTotal cr = some v ↔ ∃ n, CompleteLength cr n ∧ v = n % 2 ^ 64 := by
  constructor
  · intro h
    obtain ⟨sv, hsv, hsome⟩ := Option.bind_eq_some_iff.mp h
    split_ifs at hsome with hdigit
    simp only [Bool.not_eq_true', Bool.not_eq_false] at hdigit
    obtain ⟨unit, blanks, hcr, hunit⟩ := (afterUnit_eq_some hdigit).mp hsv
    split at hsome
    · cases hsome
    · next slash total hcut =>
      split_ifs at hsome with htotal
      have hslash : slash = '/' := by
        have hnot := List.head?_dropWhile_not (fun c : Char => decide (c ≠ '/')) sv
        rw [hcut] at hnot
        simpa using hnot
      subst hslash
      have hsplit : sv = sv.takeWhile (· ≠ '/') ++ '/' :: total := by
        rw [← hcut, List.takeWhile_append_dropWhile]
      have hrange : (sv.takeWhile (· ≠ '/')).head?.any Char.isDigit = true := by
        cases sv with
        | nil => cases hdigit
        | cons c sv =>
          have hc : c ≠ '/' := by
            rintro rfl
            cases hdigit
          rw [List.takeWhile_cons_of_pos (by simpa using hc)]
          exact hdigit
      rw [digitLoop_eq 0 total (by norm_num)] at hsome
      refine ⟨decimal (total.takeWhile Char.isDigit), ⟨unit, blanks, sv.takeWhile (· ≠ '/'),
        total.takeWhile Char.isDigit, total.dropWhile Char.isDigit, ?_, hunit, hrange, ?_,
        digits_takeWhile htotal, rfl⟩, (Option.some.inj hsome).symm⟩
      · rw [List.takeWhile_append_dropWhile, ← hsplit, hcr]
      · intro hmem
        simpa using List.mem_takeWhile_imp hmem
  · rintro ⟨n, ⟨unit, blanks, range, digits, rest, rfl, hunit, hrange, hslash, hdigits, rfl⟩, rfl⟩
    have hhead := head?_range hrange ('/' :: (digits ++ rest))
    have hcut := dropWhile_range hslash (digits ++ rest)
    obtain ⟨htake, -⟩ := takeWhile_digits hdigits
    unfold contentRangeTotal
    rw [(afterUnit_eq_some hhead).mpr ⟨unit, blanks, rfl, hunit⟩]
    simp only [Option.bind_eq_bind, Option.bind_some, hhead, Bool.not_true, Bool.false_eq_true,
      if_false, hcut, head?_digits hdigits rest, if_true,
      digitLoop_eq 0 (digits ++ rest) (by norm_num), htake]
    rfl

/-! ## One number is written -/

/-- The number of a run of digits is that of the digits at its front. -/
theorem decimal_of_cut (h : sv = digits ++ rest)
    (hdigits : Digits digits rest) : decimal digits = decimal (sv.takeWhile Char.isDigit) := by
  rw [h, (takeWhile_digits hdigits).1]

theorem FirstPosition.unique {n m : ℕ} (hn : FirstPosition cr n)
    (hm : FirstPosition cr m) : n = m := by
  obtain ⟨unit, blanks, digits, rest, hcr, hunit, hdigits, rfl⟩ := hn
  obtain ⟨unit', blanks', digits', rest', hcr', hunit', hdigits', rfl⟩ := hm
  have hsv := (afterUnit_eq_some (head?_digits hdigits ('-' :: rest))).mpr
    ⟨unit, blanks, hcr, hunit⟩
  have hsv' := (afterUnit_eq_some (head?_digits hdigits' ('-' :: rest'))).mpr
    ⟨unit', blanks', hcr', hunit'⟩
  rw [hsv] at hsv'
  rw [decimal_of_cut rfl hdigits, decimal_of_cut rfl hdigits', Option.some.inj hsv']

theorem CompleteLength.unique {n m : ℕ} (hn : CompleteLength cr n)
    (hm : CompleteLength cr m) : n = m := by
  obtain ⟨unit, blanks, range, digits, rest, hcr, hunit, hrange, hslash, hdigits, rfl⟩ := hn
  obtain ⟨unit', blanks', range', digits', rest', hcr', hunit', hrange', hslash', hdigits', rfl⟩ :=
    hm
  have hsv := (afterUnit_eq_some (head?_range hrange _)).mpr ⟨unit, blanks, hcr, hunit⟩
  have hsv' := (afterUnit_eq_some (head?_range hrange' _)).mpr ⟨unit', blanks', hcr', hunit'⟩
  rw [hsv] at hsv'
  have htotal := dropWhile_range hslash (digits ++ rest)
  rw [Option.some.inj hsv', dropWhile_range hslash'] at htotal
  rw [decimal_of_cut rfl hdigits, decimal_of_cut rfl hdigits', List.tail_eq_of_cons_eq htotal.symm]

/-! ## When the number is exact -/

/-- What the functions return for the header is what is written in it. -/
structure Exact (cr : List Char) : Prop where
  start : ∀ v, contentRangeStart cr = some v → FirstPosition cr v
  total : ∀ v, contentRangeTotal cr = some v → CompleteLength cr v

/-- The numbers of the header fit in a `size_t`. -/
structure Fits (cr : List Char) : Prop where
  start : ∀ n, FirstPosition cr n → n < 2 ^ 64
  total : ∀ n, CompleteLength cr n → n < 2 ^ 64

/-- **What is returned is the number that is written exactly when that fits in 64 bits**, for the
    first-byte position and for the complete length. -/
theorem content_range_exact_iff (cr : List Char) : Exact cr ↔ Fits cr := by
  constructor
  · intro h
    constructor
    · intro n hn
      have hwrapped := h.start (n % 2 ^ 64) (contentRangeStart_eq_some.mpr ⟨n, hn, rfl⟩)
      rw [hn.unique hwrapped]
      exact Nat.mod_lt _ (by norm_num)
    · intro n hn
      have hwrapped := h.total (n % 2 ^ 64) (contentRangeTotal_eq_some.mpr ⟨n, hn, rfl⟩)
      rw [hn.unique hwrapped]
      exact Nat.mod_lt _ (by norm_num)
  · intro h
    constructor
    · intro v hv
      obtain ⟨n, hn, rfl⟩ := contentRangeStart_eq_some.mp hv
      rwa [Nat.mod_eq_of_lt (h.start n hn)]
    · intro v hv
      obtain ⟨n, hn, rfl⟩ := contentRangeTotal_eq_some.mp hv
      rwa [Nat.mod_eq_of_lt (h.total n hn)]

/-- The header `bytes 0-9/18446744073709551626` announces an object of 2^64 + 10 bytes, and its
    total is 10. -/
theorem wrapped_total : ¬Exact "bytes 0-9/18446744073709551626".toList := by
  have hten : contentRangeTotal "bytes 0-9/18446744073709551626".toList = some 10 := by
    decide +kernel
  have hlength : CompleteLength "bytes 0-9/18446744073709551626".toList 18446744073709551626 :=
    ⟨"bytes".toList, [' '], "0-9".toList, "18446744073709551626".toList, [], by decide +kernel,
      ⟨rfl, by simp [isBlank]⟩, rfl, by decide,
      ⟨by decide, List.all_eq_true.mp (by rfl), rfl⟩, by decide +kernel⟩
  intro hexact
  have hunique := hlength.unique (hexact.total 10 hten)
  omega

end Sirius.Io.ContentRange
