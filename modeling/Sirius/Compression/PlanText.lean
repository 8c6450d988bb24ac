import Sirius.Compression.PlanTree

/-!
# Reading rendered plan text

What the parser of the plan DSL makes of text that `render_plan_steps` wrote: numbers,
tokens, token lists and lines, on tokens that a parse can have produced.

* `parseUint_renderUint`, `splitPathAndRange_renderToken`: numbers and ranges are read back.
* `canonicalizePath_append`: canonicalization looks at the first segment of a path only.
* `splitCsv_renderTokenList`, `splitByArrow_renderStep`: the tokens and sections of a line.
-/

namespace Sirius.Compression.Plan

open Sirius.Common Sirius.Common.Text

/-! ## Numbers -/

theorem digitChar_spec {d : ℕ} (h : d < 10) :
    (Nat.digitChar d).isDigit = true ∧ (Nat.digitChar d).toNat - 48 = d := by
  interval_cases d <;> decide

theorem renderUint_isDigit (n : UInt32) : ∀ c ∈ renderUint n, c.isDigit = true := by
  unfold renderUint
  split_ifs with hzero
  · intro c hc
    rw [List.mem_singleton.mp hc]
    rfl
  · intro c hc
    obtain ⟨d, hd, rfl⟩ := List.mem_map.mp hc
    exact (digitChar_spec (Nat.digits_lt_base (by decide) (List.mem_reverse.mp hd))).1

theorem renderUint_ne_nil (n : UInt32) : renderUint n ≠ [] := by
  unfold renderUint
  split_ifs with hzero
  · decide
  · simpa [Nat.digits_ne_nil_iff_ne_zero] using hzero

theorem foldr_digitChar (ds : List ℕ) (h : ∀ d ∈ ds, d < 10) :
    ds.foldr (fun d n => 10 * n + ((Nat.digitChar d).toNat - 48)) 0 = Nat.ofDigits 10 ds := by
  induction ds with
  | nil => rfl
  | cons d ds ih =>
    rw [List.foldr_cons, ih fun e he => h e (List.mem_cons_of_mem _ he), Nat.ofDigits_cons,
      (digitChar_spec (h d List.mem_cons_self)).2]
    ring

theorem decimal_renderUint (n : UInt32) : decimal (renderUint n) = n.toNat := by
  unfold renderUint
  split_ifs with hzero
  · rw [hzero]
    rfl
  · rw [decimal, List.foldl_map, List.foldl_reverse, foldr_digitChar, Nat.ofDigits_digits]
    exact fun d hd => Nat.digits_lt_base (by decide) hd

theorem parseUint_renderUint (n : UInt32) : parseUint (renderUint n) = some n := by
  have hall : (renderUint n).all Char.isDigit = true :=
    List.all_eq_true.mpr (renderUint_isDigit n)
  unfold parseUint
  rw [decimal_renderUint, if_pos ⟨renderUint_ne_nil n, hall, n.toNat_lt⟩, UInt32.ofNat_toNat]

variable {c : Char}

/-- No digit is one of the characters the syntax uses. -/
theorem not_mem_renderUint (n : UInt32) (hc : c.isDigit = false) : c ∉ renderUint n := by
  intro hmem
  rw [renderUint_isDigit n c hmem] at hc
  cases hc

variable {s tok path name t : Str}

theorem parseUint_digits {n : UInt32} (h : parseUint s = some n) :
    s ≠ [] ∧ ∀ c ∈ s, c.isDigit = true := by
  unfold parseUint at h
  split_ifs at h with hs
  exact ⟨hs.1, List.all_eq_true.mp hs.2.1⟩

/-! ## Tokens -/

theorem splitPathAndRange_of_not_mem (h : ':' ∉ tok) :
    splitPathAndRange tok = some (tok, none) := by
  rw [splitPathAndRange, splitLast_eq_none.mpr h]

/-- A rendered range is read back. -/
theorem splitPathAndRange_renderToken (hne : path ≠ []) (r : BitRange) :
    splitPathAndRange (renderToken (path, some r)) = some (path, some r) := by
  obtain ⟨hi, lo⟩ := r
  have htok : renderToken (path, some (hi, lo)) =
      (path ++ '_' :: renderUint hi) ++ ':' :: renderUint lo := by
    simp only [renderToken, List.append_assoc, List.cons_append]
  rw [htok, splitPathAndRange, splitLast_append (not_mem_renderUint lo (by decide))]
  simp only
  rw [splitLast_append (not_mem_renderUint hi (by decide))]
  simp only [if_neg hne, parseUint_renderUint]

/-- A token without a colon is its own path; another one is longer than its path, and has
digits after its last colon. -/
theorem splitPathAndRange_cases {range : Option BitRange}
    (h : splitPathAndRange tok = some (path, range)) :
    (':' ∉ tok ∧ path = tok ∧ range = none) ∨
      ∃ hi lo, tok = path ++ '_' :: (hi ++ ':' :: lo) ∧ (∀ c ∈ lo, c.isDigit = true) ∧
        path ≠ [] := by
  unfold splitPathAndRange at h
  cases hcolon : splitLast ':' tok with
  | none =>
    rw [hcolon] at h
    obtain ⟨rfl, rfl⟩ := Prod.mk.inj (Option.some.inj h)
    exact .inl ⟨splitLast_eq_none.mp hcolon, rfl, rfl⟩
  | some p =>
    obtain ⟨before, lo⟩ := p
    simp only [hcolon] at h
    obtain ⟨rfl, -⟩ := splitLast_eq_some hcolon
    cases hunder : splitLast '_' before with
    | none => rw [hunder] at h; cases h
    | some p =>
      obtain ⟨path', hi⟩ := p
      simp only [hunder] at h
      obtain ⟨rfl, -⟩ := splitLast_eq_some hunder
      split_ifs at h with hempty
      cases hhi : parseUint hi with
      | none => rw [hhi] at h; cases h
      | some hi' =>
        cases hlo : parseUint lo with
        | none => rw [hhi, hlo] at h; cases h
        | some lo' =>
          rw [hhi, hlo] at h
          obtain ⟨rfl, rfl⟩ := Prod.mk.inj (Option.some.inj h)
          exact .inr ⟨hi, lo, by simp, (parseUint_digits hlo).2, hempty⟩

theorem splitPathAndRange_isPrefix {range : Option BitRange}
    (h : splitPathAndRange tok = some (path, range)) : path <+: tok := by
  rcases splitPathAndRange_cases h with ⟨-, rfl, -⟩ | ⟨hi, lo, rfl, -, -⟩
  · exact List.prefix_rfl
  · exact List.prefix_append _ _

/-! ## Canonical names -/

/-- The canonical name is the name itself, or the name of a typed bitextract without its
type. -/
theorem bitextractCanonicalName_cases (name : Str) :
    bitextractCanonicalName name = name ∨ ∃ type fields,
      name = "bitextract_".toList ++ type ++ '_' :: fields ∧
        bitextractCanonicalName name = "bitextract_".toList ++ fields := by
  unfold bitextractCanonicalName stripBitextractPrefix
  split_ifs with hprefix
  · rw [Option.bind_some]
    cases huntyped : untyped (name.drop "bitextract_".toList.length) with
    | none => exact .inl rfl
    | some fields =>
      refine .inr ⟨(name.drop "bitextract_".toList.length).takeWhile (· ≠ '_'), fields, ?_, rfl⟩
      unfold untyped at huntyped
      split_ifs at huntyped with _ _ hunder _
      obtain rfl := Option.some.inj huntyped
      obtain ⟨suffix, rfl⟩ := hprefix.2
      rw [List.drop_left] at hunder ⊢
      rw [List.append_assoc, List.append_cancel_left_eq]
      conv_lhs => rw [← List.takeWhile_append_dropWhile (p := (· ≠ '_')) (l := suffix)]
      rw [List.append_cancel_left_eq]
      have hne : suffix.dropWhile (· ≠ '_') ≠ [] := by
        intro hnil
        rw [List.dropWhile_eq_nil_iff] at hnil
        exact absurd (hnil '_' hunder) (by decide)
      have hhead := List.head_dropWhile_not (fun c : Char => decide (c ≠ '_')) hne
      rw [decide_eq_false_iff_not, not_not] at hhead
      conv_lhs => rw [← List.cons_head_tail hne]
      rw [hhead]
  · exact .inl rfl

theorem bitextractCanonicalName_length (name : Str)
    (h : bitextractCanonicalName name ≠ name) :
    (bitextractCanonicalName name).length < name.length := by
  rcases bitextractCanonicalName_cases name with heq | ⟨type, fields, hname, hcanon⟩
  · exact absurd heq h
  · rw [hcanon, hname]
    simp only [List.length_append, List.length_cons]
    omega

theorem mem_bitextractCanonicalName (h : c ∈ bitextractCanonicalName name) : c ∈ name := by
  rcases bitextractCanonicalName_cases name with heq | ⟨type, fields, hname, hcanon⟩
  · rwa [heq] at h
  · rw [hcanon, List.mem_append] at h
    rw [hname, List.mem_append, List.mem_append, List.mem_cons]
    rcases h with h | h
    · exact .inl (.inl h)
    · exact .inr (.inr h)

theorem bitextractCanonicalName_bitjoin (h : "bitjoin".toList <+: name) :
    bitextractCanonicalName name = name := by
  rcases bitextractCanonicalName_cases name with heq | ⟨type, fields, hname, -⟩
  · exact heq
  · obtain ⟨rest, hrest⟩ := h
    rw [hname] at hrest
    have hthird := congrArg (fun s : Str => s[3]?) hrest
    simp at hthird

/-! ## Canonical paths -/

theorem takeWhile_append_cons {p : Char → Bool} {a b : Str} (hc : p c = false) :
    (a ++ c :: b).takeWhile p = a.takeWhile p ∧
      (a ++ c :: b).dropWhile p = a.dropWhile p ++ c :: b := by
  induction a with
  | nil => simp [hc]
  | cons x a ih =>
    by_cases hx : p x = true
    · simp [hx, ih.1, ih.2]
    · simp [hx]

/-- Only the first segment of a path is canonicalized. -/
theorem canonicalizePath_append (base name : Str) :
    canonicalizePath (base ++ '.' :: name) = canonicalizePath base ++ '.' :: name := by
  obtain ⟨htake, hdrop⟩ := takeWhile_append_cons (p := fun c : Char => decide (c ≠ '.'))
    (a := base) (b := name) (c := '.') (by decide)
  unfold canonicalizePath
  rw [htake, hdrop, List.append_assoc]

theorem canonicalizePath_eq_iff (path : Str) :
    canonicalizePath path = path ↔
      bitextractCanonicalName (path.takeWhile (· ≠ '.')) = path.takeWhile (· ≠ '.') := by
  unfold canonicalizePath
  conv_lhs => rhs; rw [← List.takeWhile_append_dropWhile (p := (· ≠ '.')) (l := path)]
  exact List.append_left_inj _

theorem canonicalizePath_length (path : Str) (h : canonicalizePath path ≠ path) :
    (canonicalizePath path).length < path.length := by
  rw [Ne, canonicalizePath_eq_iff] at h
  have hlt := bitextractCanonicalName_length _ h
  have hlength := congrArg List.length
    (List.takeWhile_append_dropWhile (p := fun c : Char => decide (c ≠ '.')) (l := path))
  rw [List.length_append] at hlength
  unfold canonicalizePath
  rw [List.length_append]
  omega

theorem mem_canonicalizePath (h : c ∈ canonicalizePath path) : c ∈ path := by
  unfold canonicalizePath at h
  rw [← List.takeWhile_append_dropWhile (p := fun c : Char => decide (c ≠ '.')) (l := path)]
  rcases List.mem_append.mp h with h | h
  · exact List.mem_append_left _ (mem_bitextractCanonicalName h)
  · exact List.mem_append_right _ h

theorem canonicalizePath_bitjoin (h : "bitjoin".toList <+: path) :
    canonicalizePath path = path := by
  rw [canonicalizePath_eq_iff]
  refine bitextractCanonicalName_bitjoin ?_
  obtain ⟨rest, rfl⟩ := h
  exact ⟨rest.takeWhile (· ≠ '.'), by simp⟩

/-- A path that canonicalizes to one of the same namespace is canonical itself. -/
theorem canonicalizePath_of_append {base name name' : Str}
    (h : canonicalizePath (base ++ '.' :: name) = base ++ '.' :: name') :
    canonicalizePath base = base ∧ name = name' := by
  rw [canonicalizePath_append] at h
  have hhead : ∀ b n : Str, (b ++ '.' :: n).takeWhile (fun c : Char => decide (c ≠ '.')) =
      b.takeWhile fun c : Char => decide (c ≠ '.') := fun b n =>
    (takeWhile_append_cons (by decide)).1
  have hcanon : (canonicalizePath base).takeWhile (fun c : Char => decide (c ≠ '.')) =
      bitextractCanonicalName (base.takeWhile (· ≠ '.')) := by
    have hno : ∀ c ∈ bitextractCanonicalName (base.takeWhile (· ≠ '.')),
        (fun c : Char => decide (c ≠ '.')) c = true := fun c hc =>
      List.mem_takeWhile_imp (p := fun c : Char => decide (c ≠ '.'))
        (mem_bitextractCanonicalName hc)
    unfold canonicalizePath
    rw [List.takeWhile_append_of_pos hno]
    have hdrop : (base.dropWhile fun c : Char => decide (c ≠ '.')).takeWhile
        (fun c : Char => decide (c ≠ '.')) = [] := by
      have hnot := List.head?_dropWhile_not (fun c : Char => decide (c ≠ '.')) base
      cases hrest : base.dropWhile fun c : Char => decide (c ≠ '.') with
      | nil => rfl
      | cons c rest =>
        rw [hrest] at hnot
        exact List.takeWhile_cons_of_neg (by simpa using hnot)
    rw [hdrop, List.append_nil]
  have hbase : canonicalizePath base = base := by
    rw [canonicalizePath_eq_iff]
    have := congrArg (List.takeWhile fun c : Char => decide (c ≠ '.')) h
    rwa [hhead, hhead, hcanon] at this
  rw [hbase] at h
  exact ⟨hbase, (List.cons.inj (List.append_cancel_left h)).2⟩

/-! ## Comma-separated lists -/

theorem isSpace_ne_comma (h : isSpace c = true) : c ≠ ',' := by
  rintro rfl
  cases h

theorem blank_space : ∀ c ∈ [' '], isSpace c = true := by
  intro c hc
  rw [List.mem_singleton.mp hc]
  rfl

theorem splitCsv_append (a b : Str) : splitCsv (a ++ ',' :: b) = splitCsv a ++ splitCsv b := by
  rw [splitCsv, List.splitOn_append_cons_self, List.map_append, List.filter_append]
  rfl

theorem splitCsv_of_not_mem (h : ',' ∉ s) :
    splitCsv s = if trimCopy s = [] then [] else [trimCopy s] := by
  rw [splitCsv, List.splitOn_eq_singleton h]
  by_cases htrim : trimCopy s = []
  · simp [htrim]
  · simp [htrim]

theorem splitCsv_blank_append (h : ∀ c ∈ t, isSpace c = true) : splitCsv (t ++ s) = splitCsv s := by
  have hno : ',' ∉ t := fun hmem => isSpace_ne_comma (h _ hmem) rfl
  have hpiece : ∀ u : Str, ',' ∉ u → splitCsv (t ++ u) = splitCsv u := by
    intro u hu
    have hmem : ',' ∉ t ++ u := by simp [hno, hu]
    have htrim : trimCopy (t ++ u) = trimCopy u := trim_append_left h
    rw [splitCsv_of_not_mem hmem, splitCsv_of_not_mem hu, htrim]
  by_cases hs : ',' ∈ s
  · obtain ⟨a, b, rfl, ha⟩ := List.eq_append_cons_of_mem hs
    rw [← List.append_assoc, splitCsv_append, splitCsv_append, hpiece a ha]
  · exact hpiece s hs

theorem splitCsv_append_blank (h : ∀ c ∈ t, isSpace c = true) : splitCsv (s ++ t) = splitCsv s := by
  have hno : ',' ∉ t := fun hmem => isSpace_ne_comma (h _ hmem) rfl
  have hpiece : ∀ u : Str, ',' ∉ u → splitCsv (u ++ t) = splitCsv u := by
    intro u hu
    have hmem : ',' ∉ u ++ t := by simp [hno, hu]
    have htrim : trimCopy (u ++ t) = trimCopy u := trim_append_right h
    rw [splitCsv_of_not_mem hmem, splitCsv_of_not_mem hu, htrim]
  cases hlast : splitLast ',' s with
  | none => exact hpiece s (splitLast_eq_none.mp hlast)
  | some p =>
    obtain ⟨a, b⟩ := p
    obtain ⟨rfl, hb⟩ := splitLast_eq_some hlast
    rw [List.append_assoc, List.cons_append, splitCsv_append, splitCsv_append, hpiece b hb]

/-- Trimming a list first does not change its tokens. -/
theorem splitCsv_trimCopy (s : Str) : splitCsv (trimCopy s) = splitCsv s := by
  obtain ⟨l, r, hs, hl, hr⟩ := exists_pad isSpace s
  conv_rhs => rw [hs]
  rw [splitCsv_append_blank hr, splitCsv_blank_append hl]
  rfl

theorem splitCsv_length_pos (h : ∃ c ∈ s, isSpace c = false ∧ c ≠ ',') :
    0 < (splitCsv s).length := by
  obtain ⟨c, hc, hblank, hcomma⟩ := h
  induction hn : s.length using Nat.strong_induction_on generalizing s with
  | _ n ih =>
    by_cases hs : ',' ∈ s
    · obtain ⟨a, b, rfl, -⟩ := List.eq_append_cons_of_mem hs
      rw [splitCsv_append, List.length_append]
      rw [List.length_append, List.length_cons] at hn
      rcases List.mem_append.mp hc with hc | hc
      · have := ih a.length (by omega) hc rfl
        omega
      · have := ih b.length (by omega) ((List.mem_cons.mp hc).resolve_left hcomma) rfl
        omega
    · have htrim : trimCopy s ≠ [] := trim_ne_nil ⟨c, hc, hblank⟩
      rw [splitCsv_of_not_mem hs, if_neg htrim]
      simp

/-- The tokens of a rendered list, whatever the tokens hold. -/
theorem splitCsv_renderTokenList (ts : List (Str × Option BitRange)) :
    splitCsv (renderTokenList ts) = ts.flatMap fun t => splitCsv (renderToken t) := by
  induction ts with
  | nil => rfl
  | cons t ts ih =>
    cases ts with
    | nil => simp [renderTokenList]
    | cons t' ts =>
      have htext : renderTokenList (t :: t' :: ts) =
          renderToken t ++ ',' :: ([' '] ++ renderTokenList (t' :: ts)) := by
        simp [renderTokenList]
      rw [htext, splitCsv_append, splitCsv_blank_append blank_space, ih, List.flatMap_cons,
        List.flatMap_cons, List.flatMap_cons]

/-! ## What a parse can have read -/

/-- Text from inside one section of a line: not empty, not indented, without a line end, a
comment or an arrow. -/
structure Clean (s : Str) : Prop where
  ne_nil : s ≠ []
  first : ∀ c, s.head? = some c → isSpace c = false
  line : '\n' ∉ s
  comment : '#' ∉ s
  arrow : NoPair '-' '>' s

/-- Clean text of one token. -/
structure CleanToken (s : Str) : Prop extends Clean s where
  comma : ',' ∉ s

theorem Clean.exists_nonblank (h : Clean s) : ∃ c ∈ s, isSpace c = false := by
  cases s with
  | nil => exact absurd rfl h.ne_nil
  | cons c s => exact ⟨c, List.mem_cons_self, h.first c rfl⟩

/-- A prefix of clean text is clean. -/
theorem Clean.of_isPrefix (h : Clean s) (ht : t <+: s) (hne : t ≠ []) : Clean t := by
  refine ⟨hne, fun c hc => h.first c ?_, fun hm => h.line (ht.subset hm),
    fun hm => h.comment (ht.subset hm), h.arrow.of_isInfix ht.isInfix⟩
  obtain ⟨rest, rfl⟩ := ht
  cases t with
  | nil => exact absurd rfl hne
  | cons a t => exact hc

theorem CleanToken.of_isPrefix (h : CleanToken s) (ht : t <+: s) (hne : t ≠ []) : CleanToken t :=
  ⟨h.toClean.of_isPrefix ht hne, fun hm => h.comma (ht.subset hm)⟩

theorem canonicalizePath_noPair (h : NoPair '-' '>' path) :
    NoPair '-' '>' (canonicalizePath path) := by
  unfold canonicalizePath
  rcases bitextractCanonicalName_cases (path.takeWhile (· ≠ '.')) with heq | ⟨type, fields, hname, hc⟩
  · rwa [heq, List.takeWhile_append_dropWhile]
  · rw [hc]
    have hpath : path = "bitextract_".toList ++ type ++
        '_' :: (fields ++ path.dropWhile (· ≠ '.')) := by
      conv_lhs => rw [← List.takeWhile_append_dropWhile (p := (· ≠ '.')) (l := path), hname]
      simp only [List.append_assoc, List.cons_append]
    have hrest : NoPair '-' '>' ('_' :: (fields ++ path.dropWhile (· ≠ '.'))) :=
      h.of_isInfix ⟨"bitextract_".toList ++ type, [], by rw [List.append_nil]; exact hpath.symm⟩
    have hcat : "bitextract_".toList ++ fields ++ path.dropWhile (· ≠ '.') =
        "bitextract".toList ++ '_' :: (fields ++ path.dropWhile (· ≠ '.')) := by
      simp
    rw [hcat]
    exact noPair_append (noPair_of_not_mem (by decide)) hrest (by decide)

theorem canonicalizePath_head? (path : Str) :
    (canonicalizePath path).head? = path.head? := by
  unfold canonicalizePath
  rcases bitextractCanonicalName_cases (path.takeWhile (· ≠ '.')) with heq | ⟨type, fields, hname, hc⟩
  · rw [heq, List.takeWhile_append_dropWhile]
  · rw [hc]
    conv_rhs => rw [← List.takeWhile_append_dropWhile (p := (· ≠ '.')) (l := path), hname]
    rfl

/-- Canonicalizing a clean token leaves a clean token. -/
theorem CleanToken.canonicalizePath (h : CleanToken path) : CleanToken (canonicalizePath path) := by
  have hhead := canonicalizePath_head? path
  refine ⟨⟨?_, ?_, fun hm => h.line (mem_canonicalizePath hm),
    fun hm => h.comment (mem_canonicalizePath hm), canonicalizePath_noPair h.arrow⟩,
    fun hm => h.comma (mem_canonicalizePath hm)⟩
  · intro hnil
    rw [hnil] at hhead
    exact h.ne_nil (List.head?_eq_none_iff.mp hhead.symm)
  · intro c hc
    rw [hhead] at hc
    exact h.first c hc

end Sirius.Compression.Plan
