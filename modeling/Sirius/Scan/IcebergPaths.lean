import Mathlib

/-!
# Paths of Iceberg data files

A manifest and the scan may spell the path of one data file differently. Models
of `strip_file_scheme` (`src/io/uri_parser.cpp`, lines 235–287), of `bare`,
`basename` and `same_file` (`src/op/scan/iceberg_dv_preparation.cpp`, lines
50–69), and of the two functions of the same names in
`iceberg_gpu_ingestible::build_delete_key_map` (lines 427–438).

`duckdb::Path::FromString` is a parameter: `fromString s` is the parsed path, or
`none` when it throws.

* `sameFile_iff`: what `same_file` compares.
* `basename_eq_of_sameFile`: a match has an equal last component.
-/

namespace Sirius.Scan

/-- The bytes of a `std::string`. -/
abbrev Path := List Char

/-! ## `strip_file_scheme` -/

/-- `hex_value(c)` (lines 45–51 of `uri_parser.cpp`). -/
def hexValue (c : Char) : Option ℕ :=
  if '0' ≤ c ∧ c ≤ '9' then some (c.toNat - '0'.toNat)
  else if 'a' ≤ c ∧ c ≤ 'f' then some (10 + (c.toNat - 'a'.toNat))
  else if 'A' ≤ c ∧ c ≤ 'F' then some (10 + (c.toNat - 'A'.toNat))
  else none

/-- `percent_decode(in)` (lines 55–72), or `none` when it throws. -/
def percentDecode : Path → Option Path
  | [] => some []
  | '%' :: hi :: lo :: rest => do
    let high ← hexValue hi
    let low ← hexValue lo
    let decoded ← percentDecode rest
    return Char.ofNat (high * 16 + low) :: decoded
  | '%' :: _ => none
  | c :: rest => do return c :: (← percentDecode rest)

/-- What `strip_file_scheme` reads of a `duckdb::Path`. -/
structure ParsedPath where
  isLocal : Bool
  anchor : Path
  path : Path
  trailingSeparator : Path
  deriving DecidableEq, Repr

def fileSchemePrefix : Path := ['f', 'i', 'l', 'e', ':']

def doubleSlash : Path := ['f', 'i', 'l', 'e', ':', '/', '/']

/-- `strip_file_scheme(path)`. -/
def stripFileScheme (fromString : Path → Option ParsedPath) (path : Path) : Path :=
  if path.length ≤ fileSchemePrefix.length then path
  else if (path.take fileSchemePrefix.length).map Char.toLower ≠ fileSchemePrefix then path
  else
    let bareStrip :=
      if path.length > doubleSlash.length then path.drop doubleSlash.length else path
    match fromString (fileSchemePrefix ++ path.drop fileSchemePrefix.length) with
    | none => bareStrip
    | some parsed =>
      if parsed.isLocal = false then bareStrip
      else
        let stripped := parsed.anchor ++ parsed.path ++ parsed.trailingSeparator
        (percentDecode stripped).getD stripped

/-! ## `bare`, `basename`, `same_file` -/

/-- `bare(path)`. -/
def bare (path : Path) : Path :=
  if doubleSlash.isPrefixOf path then path.drop doubleSlash.length else path

/-- `basename(path)`: what follows the last `/`. -/
def basename (path : Path) : Path := (path.reverse.takeWhile (· ≠ '/')).reverse

/-- The comparison of `same_file(a, b)`, on paths without their scheme. -/
def sameFile (a b : Path) : Bool :=
  if a = b then true
  else
    let longer := if a.length ≥ b.length then a else b
    let shorter := if a.length ≥ b.length then b else a
    !shorter.isEmpty && shorter.isSuffixOf longer &&
      longer[longer.length - shorter.length - 1]? == some '/'

/-- Two spellings of one path: they are equal, or one is a non-empty suffix of the
    other after a `/`. -/
def SameSpelling (a b : Path) : Prop :=
  a = b ∨ (b ≠ [] ∧ ∃ dir, a = dir ++ '/' :: b) ∨ (a ≠ [] ∧ ∃ dir, b = dir ++ '/' :: a)

/-- A suffix with a `/` before it. -/
theorem suffix_slash_iff {longer shorter : Path} (hne : longer ≠ shorter) :
    (shorter <:+ longer ∧ longer[longer.length - shorter.length - 1]? = some '/') ↔
      ∃ dir, longer = dir ++ '/' :: shorter := by
  constructor
  · rintro ⟨⟨pre, rfl⟩, hslash⟩
    rcases List.eq_nil_or_concat pre with rfl | ⟨dir, c, rfl⟩
    · exact absurd rfl hne
    · have hidx : (dir ++ [c] ++ shorter).length - shorter.length - 1 = dir.length := by
        simp only [List.length_append, List.length_cons, List.length_nil]
        omega
      rw [List.concat_eq_append, hidx, List.append_assoc,
        List.getElem?_append_right le_rfl] at hslash
      have hc : c = '/' := by simpa using hslash
      exact ⟨dir, by simp [hc]⟩
  · rintro ⟨dir, rfl⟩
    refine ⟨⟨dir ++ ['/'], by simp⟩, ?_⟩
    have hidx : (dir ++ '/' :: shorter).length - shorter.length - 1 = dir.length := by
      simp only [List.length_append, List.length_cons]
      omega
    rw [hidx, List.getElem?_append_right le_rfl]
    simp

theorem sameFile_iff (a b : Path) : sameFile a b = true ↔ SameSpelling a b := by
  unfold sameFile SameSpelling
  by_cases heq : a = b
  · simp [heq]
  rw [if_neg heq]
  dsimp only
  by_cases hlen : a.length ≥ b.length
  · have hshort : ¬∃ dir, b = dir ++ '/' :: a := by
      rintro ⟨dir, rfl⟩
      simp only [List.length_append, List.length_cons] at hlen
      omega
    simp only [hlen, if_true, Bool.and_eq_true, Bool.not_eq_true', List.isEmpty_eq_false_iff,
      List.isSuffixOf_iff_suffix, beq_iff_eq, heq, false_or, hshort, and_false, or_false]
    rw [and_assoc, suffix_slash_iff heq]
  · have hshort : ¬∃ dir, a = dir ++ '/' :: b := by
      rintro ⟨dir, rfl⟩
      simp only [List.length_append, List.length_cons] at hlen
      omega
    simp only [hlen, if_false, Bool.and_eq_true, Bool.not_eq_true', List.isEmpty_eq_false_iff,
      List.isSuffixOf_iff_suffix, beq_iff_eq, heq, false_or, hshort, and_false]
    rw [and_assoc, suffix_slash_iff (Ne.symm heq)]

theorem basename_slash (dir path : Path) : basename (dir ++ '/' :: path) = basename path := by
  unfold basename
  rw [List.reverse_append, List.reverse_cons, List.append_assoc]
  congr 1
  induction path.reverse with
  | nil => simp
  | cons c rest ih =>
    rw [List.cons_append, List.takeWhile_cons, List.takeWhile_cons, ih]

/-- Matching implies an equal last component. -/
theorem basename_eq_of_sameFile {a b : Path} (h : sameFile a b = true) :
    basename a = basename b := by
  rcases (sameFile_iff a b).mp h with rfl | ⟨-, dir, rfl⟩ | ⟨-, dir, rfl⟩
  · rfl
  · exact basename_slash dir b
  · exact (basename_slash dir a).symm

theorem basename_bare (path : Path) : basename (bare path) = basename path := by
  unfold bare
  split_ifs with h
  · obtain ⟨rest, rfl⟩ := List.isPrefixOf_iff_prefix.mp h
    rw [List.drop_left]
    exact (basename_slash ['f', 'i', 'l', 'e', ':', '/'] rest).symm
  · rfl

end Sirius.Scan
