import Sirius.Common.Search
import Sirius.Common.Text

/-!
# Redacted URIs

Model of `redacted_uri` and `is_scheme` (src/io/s3/scope_policy.cpp:31-42, 70-89), the text of a
URI that may appear in logs and errors.

The components of a text are those of RFC 3986, appendix B, whose expression every text matches:
`^(([^:/?#]+):)?(//([^/?#]*))?([^?#]*)(\?([^#]*))?(#(.*))?`. The userinfo is what comes before the
last `@` of the authority.

* `Components`, `exists_components`: every text has components.
* `Components.withSecrets`: the userinfo, the query and the fragment are drawn again, but for
  their delimiters.
* `Components.redactedUri_text`: the redacted text, component by component.
* `redactedUri_hides`: it does not depend on the secrets.
-/

namespace Sirius.Io.RedactedUri

open Sirius.Common.Text
open Sirius.Common.Search

/-! ## The function -/

/-- `is_scheme` (lines 31–42). -/
def isScheme (text : List Char) : Bool :=
  match text with
  | [] => false
  | c :: _ => c.isAlpha &&
    text.all fun c => c.isAlpha || c.isDigit || c = '+' || c = '-' || c = '.'

def kPlaceholder : List Char := "<redacted-uri>".toList

/-- Neither `?` nor `#`. -/
def plain (c : Char) : Bool := c ≠ '?' && c ≠ '#'

/-- `find_first_of("?#", from)`. -/
def findFirstOf (uri : List Char) (start : ℕ) : Option ℕ :=
  ((uri.drop start).findIdx? fun c => !plain c).map (start + ·)

/-- `redacted_uri` (lines 70–89). -/
def redactedUri (uri : List Char) : List Char :=
  match splitLast '@' uri with
  | none => uri.take ((findFirstOf uri 0).getD uri.length)
  | some (beforeAt, _) =>
    match cutFirst "://".toList uri with
    | none => kPlaceholder
    | some (scheme, _) =>
      if !isScheme scheme then kPlaceholder
      else
        let schemeEnd := scheme.length
        let cut := findFirstOf uri (schemeEnd + 3)
        if cut.any fun cut => decide (beforeAt.length > cut) then kPlaceholder
        else
          let last := cut.getD uri.length
          uri.take (schemeEnd + 3) ++
            (uri.drop (beforeAt.length + 1)).take (last - (beforeAt.length + 1))

/-! ## Components -/

/-- The authority: the userinfo with its `@`, and the host and port. -/
structure Authority where
  userinfo : Option (List Char)
  host : List Char
  userinfo_plain : ∀ info ∈ userinfo, ∀ c ∈ info, c ≠ '/' ∧ plain c = true
  host_plain : ∀ c ∈ host, c ≠ '/' ∧ plain c = true
  host_last : '@' ∉ host

/-- The text of an authority. -/
def Authority.text (authority : Authority) : List Char :=
  (authority.userinfo.elim [] fun info => info ++ ['@']) ++ authority.host

/-- The components of a text. The fields behind the first five say that each takes as much of
    the text as it can. -/
structure Components where
  scheme : Option (List Char)
  authority : Option Authority
  path : List Char
  query : Option (List Char)
  fragment : Option (List Char)
  scheme_plain : ∀ s ∈ scheme, s ≠ [] ∧ ∀ c ∈ s, c ≠ ':' ∧ c ≠ '/' ∧ plain c = true
  path_plain : ∀ c ∈ path, plain c = true
  path_absolute : authority.isSome → path = [] ∨ path.head? = some '/'
  no_scheme : scheme = none → authority = none →
    ∀ s rest, path = s ++ ':' :: rest → s = [] ∨ ':' ∈ s ∨ '/' ∈ s
  no_authority : authority = none → ¬"//".toList <+: path
  query_plain : ∀ q ∈ query, '#' ∉ q

namespace Components

def schemeText (c : Components) : List Char := c.scheme.elim [] fun s => s ++ [':']

def authorityText (c : Components) : List Char :=
  c.authority.elim [] fun a => '/' :: '/' :: a.text

/-- What comes before the query and the fragment. -/
def hierarchy (c : Components) : List Char := c.schemeText ++ (c.authorityText ++ c.path)

/-- The query and the fragment, with their delimiters. -/
def suffixText (c : Components) : List Char :=
  (c.query.elim [] fun q => '?' :: q) ++ c.fragment.elim [] fun f => '#' :: f

/-- The text that is put together from components. -/
def text (c : Components) : List Char := c.hierarchy ++ c.suffixText

end Components

/-- What stays of a secret component: its delimiters. -/
def skeleton (s : List Char) : List Char := s.filter fun c => c ∈ ['@', '?', '#', '/', ':']

/-- Two components are both there, with the same delimiters, or both missing. -/
def SameSkeleton (s s' : Option (List Char)) : Prop := s.map skeleton = s'.map skeleton

/-- The secret components of a text. -/
structure Secrets where
  userinfo : Option (List Char)
  query : Option (List Char)
  fragment : Option (List Char)

/-- Between the delimiters, every run of characters may be another one. -/
structure Secrets.Obscures (s s' : Secrets) : Prop where
  userinfo : SameSkeleton s.userinfo s'.userinfo
  query : SameSkeleton s.query s'.query
  fragment : SameSkeleton s.fragment s'.fragment

theorem mem_skeleton {x : Char} (hx : x ∈ ['@', '?', '#', '/', ':']) {s : List Char} :
    x ∈ skeleton s ↔ x ∈ s := by
  rw [skeleton, List.mem_filter]
  simp only [hx, decide_true, and_true]

/-- The delimiters of one of two components with the same skeleton are those of the other. -/
theorem SameSkeleton.exists_mem {s s' : Option (List Char)} (h : SameSkeleton s s') {x : Char}
    (hx : x ∈ ['@', '?', '#', '/', ':']) : (∃ t ∈ s, x ∈ t) ↔ ∃ t ∈ s', x ∈ t := by
  have hmem (s : Option (List Char)) : (∃ t ∈ s, x ∈ t) ↔ ∃ t ∈ s.map skeleton, x ∈ t := by
    cases s with
    | none => simp
    | some t => simp [mem_skeleton hx]
  rw [hmem s, hmem s', show s.map skeleton = s'.map skeleton from h]

theorem SameSkeleton.isSome {s s' : Option (List Char)} (h : SameSkeleton s s') :
    s.isSome = s'.isSome := by
  rw [← Option.isSome_map (f := skeleton) (x := s), ← Option.isSome_map (f := skeleton) (x := s'),
    show s.map skeleton = s'.map skeleton from h]

/-- The authority with another userinfo. -/
def Authority.withUserinfo (info : Option (List Char)) (a : Authority)
    (h : SameSkeleton a.userinfo info) : Authority where
  userinfo := info
  host := a.host
  userinfo_plain i hi x hx := by
    -- a delimiter of the new userinfo is one of the old, which has none
    have hback (y : Char) (hy : y ∈ ['@', '?', '#', '/', ':']) (hxy : x = y) :
        y ≠ '/' ∧ plain y = true := by
      obtain ⟨i₀, hi₀, hmem⟩ := (h.exists_mem hy).mpr ⟨i, hi, hxy ▸ hx⟩
      exact a.userinfo_plain i₀ hi₀ y hmem
    refine ⟨fun heq => (hback '/' (by decide) heq).1 rfl, ?_⟩
    rw [plain, Bool.and_eq_true, decide_eq_true_eq, decide_eq_true_eq]
    exact ⟨fun heq => absurd (hback '?' (by decide) heq).2 (by decide),
      fun heq => absurd (hback '#' (by decide) heq).2 (by decide)⟩
  host_plain := a.host_plain
  host_last := a.host_last

namespace Components

/-- The parts that a redacted text hides. -/
def secrets (c : Components) : Secrets where
  userinfo := c.authority.bind Authority.userinfo
  query := c.query
  fragment := c.fragment

/-- The components with other secrets. -/
def withSecrets (c : Components) (s : Secrets) (h : c.secrets.Obscures s) : Components where
  scheme := c.scheme
  authority := c.authority.pmap (Authority.withUserinfo s.userinfo) fun a ha => by
    have := h.userinfo
    rwa [secrets, show c.authority = some a from ha] at this
  path := c.path
  query := s.query
  fragment := s.fragment
  scheme_plain := c.scheme_plain
  path_plain := c.path_plain
  path_absolute ha := c.path_absolute (by simpa using ha)
  no_scheme hs ha := c.no_scheme hs (by simpa using ha)
  no_authority ha := c.no_authority (by simpa using ha)
  query_plain q hq hmem := by
    obtain ⟨q₀, hq₀, hmem₀⟩ := (h.query.exists_mem (x := '#') (by decide)).mpr ⟨q, hq, hmem⟩
    exact c.query_plain q₀ hq₀ hmem₀

end Components

/-! ## Cutting a text at its query -/

/-- A query or a fragment, or nothing. -/
def IsSuffix (tail : List Char) : Prop := ∀ c, tail.head? = some c → plain c = false

variable {body tail : List Char}

theorem findFirstOf_eq (front : List Char) (hbody : ∀ c ∈ body, plain c = true) (htail : IsSuffix tail) :
    findFirstOf (front ++ (body ++ tail)) front.length =
      if tail = [] then none else some (front.length + body.length) := by
  have hidx : (body ++ tail).findIdx? (fun c => !plain c) =
      if tail = [] then none else some body.length := by
    rw [List.findIdx?_append, List.findIdx?_eq_none_iff.mpr (by simpa using hbody)]
    cases tail with
    | nil => rfl
    | cons c tail =>
      have hc : plain c = false := htail c rfl
      rw [List.findIdx?_cons, hc]
      simp
  rw [findFirstOf, List.drop_left, hidx]
  split_ifs <;> rfl

/-- The first `?` or `#` behind the front, or the end of the text. -/
theorem getD_findFirstOf (front : List Char) (hbody : ∀ c ∈ body, plain c = true) (htail : IsSuffix tail) :
    (findFirstOf (front ++ (body ++ tail)) front.length).getD (front ++ (body ++ tail)).length =
      front.length + body.length := by
  rw [findFirstOf_eq front hbody htail]
  split_ifs with hnil
  · simp [hnil]
  · rfl

/-- Without `@`, the text up to its query or fragment. -/
theorem redactedUri_of_not_mem (hbody : ∀ c ∈ body, plain c = true) (htail : IsSuffix tail)
    (hat : '@' ∉ body ++ tail) : redactedUri (body ++ tail) = body := by
  have hlast := getD_findFirstOf [] hbody htail
  simp only [List.nil_append, List.length_nil, Nat.zero_add] at hlast
  rw [redactedUri, splitLast_eq_none.mpr hat]
  dsimp only
  rw [hlast, List.take_left]

/-- Without a leading scheme, the placeholder. -/
theorem redactedUri_of_no_scheme {uri : List Char} (hat : '@' ∈ uri)
    (h : ∀ s rest, uri = s ++ ("://".toList ++ rest) → isScheme s = false) :
    redactedUri uri = kPlaceholder := by
  rw [redactedUri]
  cases hsplit : splitLast '@' uri with
  | none => exact absurd hat (splitLast_eq_none.mp hsplit)
  | some p =>
    dsimp only
    cases hcut : cutFirst "://".toList uri with
    | none => rfl
    | some q =>
      obtain ⟨scheme, rest⟩ := q
      dsimp only
      rw [h scheme rest (eq_of_cutFirst hcut)]
      rfl

theorem isScheme_chars {s : List Char} (h : isScheme s = true) :
    ':' ∉ s ∧ '/' ∉ s ∧ (∀ c ∈ s, plain c = true) ∧ '@' ∉ s := by
  have hall : ∀ c ∈ s, (c.isAlpha || c.isDigit || c = '+' || c = '-' || c = '.') = true := by
    cases s with
    | nil => cases h
    | cons c s =>
      rw [isScheme, Bool.and_eq_true, List.all_eq_true] at h
      exact h.2
  refine ⟨fun hmem => absurd (hall _ hmem) (by decide),
    fun hmem => absurd (hall _ hmem) (by decide), fun c hc => ?_,
    fun hmem => absurd (hall _ hmem) (by decide)⟩
  rw [plain, Bool.and_eq_true, decide_eq_true_eq, decide_eq_true_eq]
  constructor <;> rintro rfl <;> exact absurd (hall _ hc) (by decide)

/-- The scheme is what comes before the first `://`. -/
theorem cutFirst_scheme {s : List Char} (h : ':' ∉ s) (rest : List Char) :
    cutFirst "://".toList (s ++ ("://".toList ++ rest)) = some (s, rest) := by
  rw [show "://".toList = ':' :: "//".toList from rfl, cutFirst_skip_of_not_mem h, cutFirst_self,
    Option.map_some, List.append_nil]

/-- Behind the scheme, the placeholder if there is an `@` in the query or the fragment. -/
theorem redactedUri_of_mem_tail {s : List Char} (hs : isScheme s = true)
    (hbody : ∀ c ∈ body, plain c = true) (htail : IsSuffix tail) (hat : '@' ∈ tail) :
    redactedUri (s ++ ("://".toList ++ (body ++ tail))) = kPlaceholder := by
  obtain ⟨t₁, t₂, rfl, ht₂⟩ : ∃ t₁ t₂, tail = t₁ ++ '@' :: t₂ ∧ '@' ∉ t₂ := by
    cases hsplit : splitLast '@' tail with
    | none => exact absurd hat (splitLast_eq_none.mp hsplit)
    | some p => exact ⟨p.1, p.2, splitLast_eq_some hsplit⟩
  have hsplit : splitLast '@' (s ++ ("://".toList ++ (body ++ (t₁ ++ '@' :: t₂)))) =
      some (s ++ ("://".toList ++ (body ++ t₁)), t₂) := by
    rw [← splitLast_append (l := s ++ ("://".toList ++ (body ++ t₁))) ht₂]
    simp
  have hcut : findFirstOf (s ++ ("://".toList ++ (body ++ (t₁ ++ '@' :: t₂)))) (s.length + 3) =
      some (s.length + 3 + body.length) := by
    have := findFirstOf_eq (s ++ "://".toList) hbody htail
    rw [if_neg (by simp), List.append_assoc] at this
    simpa using this
  rw [redactedUri, hsplit]
  dsimp only
  rw [cutFirst_scheme (isScheme_chars hs).1]
  simp only [hs, Bool.not_true, Bool.false_eq_true, if_false, hcut, Option.any_some]
  rw [if_pos]
  have ht₁ : t₁ ≠ [] := by
    rintro rfl
    exact absurd (htail '@' rfl) (by decide)
  have hpos := List.length_pos_iff.mpr ht₁
  simp
  omega

/-- Else what comes behind the last `@`. -/
theorem redactedUri_of_mem_body {s b₁ b₂ : List Char} (hs : isScheme s = true)
    (hbody : ∀ c ∈ b₁ ++ '@' :: b₂, plain c = true) (htail : IsSuffix tail) (hb₂ : '@' ∉ b₂)
    (hat : '@' ∉ tail) :
    redactedUri (s ++ ("://".toList ++ (b₁ ++ '@' :: b₂ ++ tail))) =
      s ++ ("://".toList ++ b₂) := by
  have hsplit : splitLast '@' (s ++ ("://".toList ++ (b₁ ++ '@' :: b₂ ++ tail))) =
      some (s ++ ("://".toList ++ b₁), b₂ ++ tail) := by
    have hafter : '@' ∉ b₂ ++ tail := by simp [hb₂, hat]
    rw [← splitLast_append (l := s ++ ("://".toList ++ b₁)) hafter]
    simp
  have hfront : (s ++ "://".toList).length = s.length + 3 := by simp
  have hcut := findFirstOf_eq (s ++ "://".toList) hbody htail
  have hlast := getD_findFirstOf (s ++ "://".toList) hbody htail
  rw [List.append_assoc, hfront] at hcut hlast
  rw [redactedUri, hsplit]
  dsimp only
  rw [cutFirst_scheme (isScheme_chars hs).1]
  simp only [hs, Bool.not_true, Bool.false_eq_true, if_false]
  rw [if_neg]
  · rw [hlast]
    have hfirst : (s ++ ("://".toList ++ (b₁ ++ '@' :: b₂ ++ tail))).take (s.length + 3) =
        s ++ "://".toList := by
      rw [← List.append_assoc]
      exact List.take_left' hfront
    have hrest : (s ++ ("://".toList ++ (b₁ ++ '@' :: b₂ ++ tail))).drop
        ((s ++ ("://".toList ++ b₁)).length + 1) = b₂ ++ tail := by
      have hshape : s ++ ("://".toList ++ (b₁ ++ '@' :: b₂ ++ tail)) =
          (s ++ ("://".toList ++ b₁) ++ ['@']) ++ (b₂ ++ tail) := by simp
      rw [hshape]
      exact List.drop_left' (by rw [List.length_append, List.length_singleton])
    rw [hfirst, hrest, List.append_assoc, List.append_cancel_left_eq, List.append_cancel_left_eq]
    have hlength : s.length + 3 + (b₁ ++ '@' :: b₂).length -
        ((s ++ ("://".toList ++ b₁)).length + 1) = b₂.length := by
      simp
      omega
    rw [hlength, List.take_left]
  · rw [hcut]
    split_ifs
    · simp
    · simp
      omega

/-! ## The redacted text in terms of the components -/

/-- What comes before the last `@` of the authority and the path. -/
theorem Authority.exists_front (a : Authority) {path : List Char} (h : '@' ∈ a.text ++ path) :
    ∃ b, a.text ++ path = b ++ '@' :: (splitLast '@' path).elim (a.host ++ path) Prod.snd ∧
      '@' ∉ (splitLast '@' path).elim (a.host ++ path) Prod.snd := by
  cases hsplit : splitLast '@' path with
  | some p =>
    obtain ⟨hpath, hlast⟩ := splitLast_eq_some (l := p.1) (r := p.2) hsplit
    refine ⟨a.text ++ p.1, ?_, hlast⟩
    conv_lhs => rw [hpath]
    rw [Option.elim_some, List.append_assoc]
  | none =>
    have hpath := splitLast_eq_none.mp hsplit
    have htext := (List.mem_append.mp h).resolve_right hpath
    rw [Option.elim_none]
    cases hinfo : a.userinfo with
    | none =>
      rw [text, hinfo] at htext
      exact absurd htext a.host_last
    | some info =>
      refine ⟨info, ?_, fun hmem => ?_⟩
      · rw [text, hinfo, Option.elim_some, List.append_assoc, List.append_assoc]
        rfl
      · rcases List.mem_append.mp hmem with hmem | hmem
        · exact a.host_last hmem
        · exact hpath hmem

namespace Components

variable (c : Components)

/-- What is kept of a text, component by component. -/
def redacted : List Char :=
  if '@' ∉ c.text then c.hierarchy
  else
    match c.scheme, c.authority with
    | some s, some a =>
      if isScheme s = true ∧ '@' ∉ c.suffixText then
        s ++ ("://".toList ++ (splitLast '@' c.path).elim (a.host ++ c.path) Prod.snd)
      else kPlaceholder
    | _, _ => kPlaceholder

theorem plain_scheme {s : List Char} (h : c.scheme = some s) : ∀ x ∈ s, plain x = true :=
  fun x hx => ((c.scheme_plain s h).2 x hx).2.2

theorem plain_hierarchy : ∀ x ∈ c.hierarchy, plain x = true := by
  have hscheme : ∀ x ∈ c.schemeText, plain x = true := by
    rw [schemeText]
    cases h : c.scheme with
    | none => simp
    | some s =>
      intro x hx
      rcases List.mem_append.mp hx with hx | hx
      · exact c.plain_scheme h x hx
      · rw [List.mem_singleton.mp hx]
        rfl
  have hauthority : ∀ x ∈ c.authorityText, plain x = true := by
    rw [authorityText]
    cases c.authority with
    | none => simp
    | some a =>
      have htext : ∀ x ∈ a.text, plain x = true := by
        intro x hx
        rcases List.mem_append.mp hx with hx | hx
        · cases hinfo : a.userinfo with
          | none =>
            rw [hinfo] at hx
            cases hx
          | some info =>
            rw [hinfo] at hx
            rcases List.mem_append.mp hx with hx | hx
            · exact (a.userinfo_plain info hinfo x hx).2
            · rw [List.mem_singleton.mp hx]
              rfl
        · exact (a.host_plain x hx).2
      intro x hx
      rcases List.mem_cons.mp hx with rfl | hx
      · rfl
      rcases List.mem_cons.mp hx with rfl | hx
      · rfl
      · exact htext x hx
  intro x hx
  rcases List.mem_append.mp hx with hx | hx
  · exact hscheme x hx
  · rcases List.mem_append.mp hx with hx | hx
    · exact hauthority x hx
    · exact c.path_plain x hx

theorem isSuffix_suffixText : IsSuffix c.suffixText := by
  intro x hx
  rw [suffixText] at hx
  cases hq : c.query with
  | some q =>
    rw [hq] at hx
    cases hx
    rfl
  | none =>
    rw [hq] at hx
    cases hf : c.fragment with
    | some f =>
      rw [hf] at hx
      cases hx
      rfl
    | none =>
      rw [hf] at hx
      cases hx

/-- A text that starts with a scheme and `://` has a scheme and an authority. -/
theorem isScheme_of_missing (h : c.scheme = none ∨ c.authority = none) (s rest : List Char)
    (htext : c.text = s ++ ("://".toList ++ rest)) : isScheme s = false := by
  by_contra hs
  rw [Bool.not_eq_false] at hs
  obtain ⟨hcolon, hslash, hplain, -⟩ := isScheme_chars hs
  have hne : s ≠ [] := by
    rintro rfl
    cases hs
  -- the scheme and the `://` lie before the query and the fragment
  obtain ⟨h', hhier⟩ : ∃ h', c.hierarchy = s ++ ':' :: ("//".toList ++ h') := by
    rw [text, ← List.append_assoc] at htext
    rcases List.append_eq_append_iff.mp htext with ⟨t, hst, hsuffix⟩ | ⟨h', hhier, -⟩
    · cases t with
      | nil =>
        rw [List.append_nil] at hst
        exact ⟨[], by rw [← hst]; rfl⟩
      | cons x t =>
        have hx : plain x = false := c.isSuffix_suffixText x (by rw [hsuffix]; rfl)
        have hmem : x ∈ s ++ "://".toList := hst ▸ List.mem_append_right _ List.mem_cons_self
        rcases List.mem_append.mp hmem with hmem | hmem
        · rw [hplain x hmem] at hx
          cases hx
        · have hthree : ∀ y ∈ "://".toList, plain y = true :=
            List.all_eq_true.mp rfl
          rw [hthree x hmem] at hx
          cases hx
    · exact ⟨h', by rw [hhier, List.append_assoc]; rfl⟩
  rw [hierarchy, schemeText, authorityText] at hhier
  cases hscheme : c.scheme with
  | none =>
    rw [hscheme] at hhier
    cases hauthority : c.authority with
    | none =>
      rw [hauthority] at hhier
      rcases c.no_scheme hscheme hauthority s _ hhier with hnil | hmem | hmem
      · exact hne hnil
      · exact hcolon hmem
      · exact hslash hmem
    | some a =>
      rw [hauthority] at hhier
      cases s with
      | nil => exact hne rfl
      | cons x s =>
        obtain ⟨rfl, -⟩ := List.cons.inj hhier
        exact hslash List.mem_cons_self
  | some sch =>
    have hauthority := h.resolve_left (by simp [hscheme])
    rw [hscheme, hauthority] at hhier
    have hsch : ':' ∉ sch := fun hmem => ((c.scheme_plain sch hscheme).2 _ hmem).1 rfl
    have hsplit : sch ++ ':' :: c.path = s ++ ':' :: ("//".toList ++ h') := by
      simpa using hhier
    obtain ⟨-, hpath⟩ := append_cons_inj hsch hcolon hsplit
    exact c.no_authority hauthority ⟨h', hpath.symm⟩

/-- **The redacted text, component by component.** -/
theorem redactedUri_text : redactedUri c.text = c.redacted := by
  rw [redacted]
  by_cases hat : '@' ∈ c.text
  · rw [if_neg (not_not.mpr hat)]
    cases hscheme : c.scheme with
    | none => exact redactedUri_of_no_scheme hat (c.isScheme_of_missing (.inl hscheme))
    | some s =>
      cases hauthority : c.authority with
      | none => exact redactedUri_of_no_scheme hat (c.isScheme_of_missing (.inr hauthority))
      | some a =>
        have htext : c.text = s ++ ("://".toList ++ (a.text ++ c.path ++ c.suffixText)) := by
          rw [text, hierarchy, schemeText, authorityText, hscheme, hauthority]
          simp
        have hbody : ∀ x ∈ a.text ++ c.path, plain x = true := by
          intro x hx
          refine c.plain_hierarchy x ?_
          rw [hierarchy, authorityText, hauthority]
          simp only [Option.elim_some, List.mem_append, List.mem_cons] at hx ⊢
          tauto
        have hcolon : ':' ∉ s := fun hmem => ((c.scheme_plain s hscheme).2 _ hmem).1 rfl
        rw [htext] at hat ⊢
        dsimp only
        by_cases hs : isScheme s = true
        · by_cases hsuffix : '@' ∈ c.suffixText
          · rw [if_neg (by tauto)]
            exact redactedUri_of_mem_tail hs hbody c.isSuffix_suffixText hsuffix
          · rw [if_pos ⟨hs, hsuffix⟩]
            have hthree : '@' ∉ s ++ "://".toList := by
              intro hmem
              rcases List.mem_append.mp hmem with hmem | hmem
              · exact absurd hmem (isScheme_chars hs).2.2.2
              · exact absurd hmem (by decide)
            have hmem : '@' ∈ a.text ++ c.path := by
              simp only [List.mem_append] at hat hthree ⊢
              tauto
            obtain ⟨b, hb⟩ := a.exists_front hmem
            rw [hb.1] at hbody ⊢
            exact redactedUri_of_mem_body hs hbody c.isSuffix_suffixText hb.2 hsuffix
        · rw [if_neg (by tauto)]
          refine redactedUri_of_no_scheme hat fun s' rest heq => ?_
          by_contra hs'
          rw [Bool.not_eq_false] at hs'
          obtain ⟨rfl, -⟩ := append_cons_inj hcolon (isScheme_chars hs').1 heq
          exact hs hs'
  · rw [if_pos hat]
    exact redactedUri_of_not_mem c.plain_hierarchy c.isSuffix_suffixText hat

/-! ## What the secrets decide -/

theorem mem_text : '@' ∈ c.text ↔
    '@' ∈ c.schemeText ∨ c.secrets.userinfo.isSome ∨ '@' ∈ c.path ∨ '@' ∈ c.suffixText := by
  have hauthority : '@' ∈ c.authorityText ↔ c.secrets.userinfo.isSome := by
    rw [authorityText, secrets]
    cases c.authority with
    | none => simp
    | some a =>
      have hhost := a.host_last
      cases hinfo : a.userinfo with
      | none => simp [Authority.text, hinfo, hhost]
      | some info => simp [Authority.text, hinfo]
  rw [text, hierarchy, List.mem_append, List.mem_append, List.mem_append, hauthority]
  tauto

theorem mem_suffixText :
    '@' ∈ c.suffixText ↔ (∃ q ∈ c.query, '@' ∈ q) ∨ ∃ f ∈ c.fragment, '@' ∈ f := by
  rw [suffixText, List.mem_append]
  cases c.query <;> cases c.fragment <;> simp

variable {c} {s : Secrets} (h : c.secrets.Obscures s)

theorem mem_suffixText_withSecrets :
    '@' ∈ (c.withSecrets s h).suffixText ↔ '@' ∈ c.suffixText := by
  rw [mem_suffixText, mem_suffixText]
  exact (or_congr (h.query.exists_mem (by decide)) (h.fragment.exists_mem (by decide))).symm

theorem authority_withSecrets_none (hnone : c.authority = none) :
    (c.withSecrets s h).authority = none := by
  rw [withSecrets, Option.pmap_eq_none_iff]
  exact hnone

theorem authority_withSecrets_some {a : Authority} (ha : c.authority = some a) :
    ∃ a', (c.withSecrets s h).authority = some a' ∧ a'.host = a.host ∧
      a'.userinfo = s.userinfo := by
  have hskeleton := h.userinfo
  rw [secrets, ha] at hskeleton
  refine ⟨a.withUserinfo s.userinfo hskeleton, ?_, rfl, rfl⟩
  rw [withSecrets, Option.pmap_eq_some_iff]
  exact ⟨a, hskeleton, ha, rfl⟩

theorem userinfo_withSecrets : (c.withSecrets s h).secrets.userinfo = s.userinfo := by
  have hsome := h.userinfo.isSome
  rw [secrets] at hsome ⊢
  cases hauthority : c.authority with
  | none =>
    rw [hauthority] at hsome
    rw [authority_withSecrets_none h hauthority, Option.bind_none]
    exact (Option.isNone_iff_eq_none.mp (by simpa using hsome.symm)).symm
  | some a =>
    obtain ⟨a', ha', -, hinfo⟩ := authority_withSecrets_some h hauthority
    rw [ha', Option.bind_some, hinfo]

theorem mem_text_withSecrets : '@' ∈ (c.withSecrets s h).text ↔ '@' ∈ c.text := by
  rw [mem_text, mem_text, userinfo_withSecrets, mem_suffixText_withSecrets, ← h.userinfo.isSome]
  rfl

/-- Without a userinfo, the part before the query is the same. -/
theorem hierarchy_withSecrets (hnone : c.secrets.userinfo = none) :
    (c.withSecrets s h).hierarchy = c.hierarchy := by
  have hsecret : s.userinfo = none := by
    have hsome := h.userinfo.isSome
    rw [hnone] at hsome
    simpa using hsome.symm
  have hauthority : (c.withSecrets s h).authorityText = c.authorityText := by
    rw [authorityText, authorityText]
    cases ha : c.authority with
    | none => rw [authority_withSecrets_none h ha]
    | some a =>
      obtain ⟨a', ha', hhost, hinfo⟩ := authority_withSecrets_some h ha
      have hold : a.userinfo = none := by rwa [secrets, ha] at hnone
      rw [ha', Option.elim_some, Option.elim_some, Authority.text, Authority.text, hinfo, hsecret,
        hold, hhost]
  rw [hierarchy, hauthority]
  rfl

theorem redacted_withSecrets : (c.withSecrets s h).redacted = c.redacted := by
  rw [redacted, redacted]
  by_cases hat : '@' ∈ c.text
  · rw [if_neg (by rwa [mem_text_withSecrets, not_not]), if_neg (not_not.mpr hat)]
    simp only [mem_suffixText_withSecrets]
    rw [show (c.withSecrets s h).scheme = c.scheme from rfl,
      show (c.withSecrets s h).path = c.path from rfl]
    cases ha : c.authority with
    | none => rw [authority_withSecrets_none h ha]
    | some a =>
      obtain ⟨a', ha', hhost, -⟩ := authority_withSecrets_some h ha
      rw [ha']
      cases c.scheme with
      | none => rfl
      | some sch =>
        dsimp only
        rw [hhost]
  · rw [if_pos (by rwa [mem_text_withSecrets]), if_pos hat]
    refine hierarchy_withSecrets h ?_
    rw [mem_text] at hat
    simpa using fun hsome => hat (.inr (.inl hsome))

end Components


/-! ## Every text has components -/

/-- The text before a character, and what comes behind it if it is there. -/
theorem exists_cut (x : Char) (u : List Char) :
    ∃ (front : List Char) (back : Option (List Char)),
      u = front ++ (back.elim [] fun b => x :: b) ∧ x ∉ front := by
  by_cases hx : x ∈ u
  · obtain ⟨front, back, rfl, hnot⟩ := List.eq_append_cons_of_mem hx
    exact ⟨front, some back, rfl, hnot⟩
  · exact ⟨u, none, (List.append_nil u).symm, hx⟩

/-- An authority is a userinfo and a host. -/
theorem exists_authority (t : List Char) (h : ∀ c ∈ t, c ≠ '/' ∧ plain c = true) :
    ∃ a : Authority, a.text = t := by
  cases hsplit : splitLast '@' t with
  | none =>
    exact ⟨⟨none, t, fun _ hi => (nomatch hi), h, splitLast_eq_none.mp hsplit⟩, rfl⟩
  | some p =>
    obtain ⟨ht, hlast⟩ := splitLast_eq_some (l := p.1) (r := p.2) hsplit
    have hinfo : ∀ c ∈ p.1, c ≠ '/' ∧ plain c = true := fun c hc =>
      h c (ht ▸ List.mem_append_left _ hc)
    have hhost : ∀ c ∈ p.2, c ≠ '/' ∧ plain c = true := fun c hc =>
      h c (ht ▸ List.mem_append_right _ (List.mem_cons_of_mem _ hc))
    refine ⟨⟨some p.1, p.2, fun i hi => Option.some.inj hi ▸ hinfo, hhost, hlast⟩, ?_⟩
    rw [ht, Authority.text, Option.elim_some, List.append_assoc]
    rfl

/-- The scheme, if there is one, ends at the first colon. -/
theorem exists_scheme (h : List Char) (hplain : ∀ c ∈ h, plain c = true) :
    ∃ (scheme : Option (List Char)) (rest : List Char),
      h = (scheme.elim [] fun s => s ++ [':']) ++ rest ∧
      (∀ s ∈ scheme, s ≠ [] ∧ ∀ c ∈ s, c ≠ ':' ∧ c ≠ '/' ∧ plain c = true) ∧
      (scheme = none → ∀ s r, rest = s ++ ':' :: r → s = [] ∨ ':' ∈ s ∨ '/' ∈ s) := by
  obtain ⟨front, back, rfl, hcolon⟩ := exists_cut ':' h
  cases back with
  | none =>
    refine ⟨none, front, List.append_nil _, fun _ hs => (nomatch hs), fun _ s r heq => ?_⟩
    rw [heq] at hcolon
    exact absurd (List.mem_append_right _ List.mem_cons_self) hcolon
  | some back =>
    by_cases hfront : front ≠ [] ∧ '/' ∉ front
    · refine ⟨some front, back, by simp, fun s hs => ?_, fun hnone => nomatch hnone⟩
      obtain rfl := Option.some.inj hs
      refine ⟨hfront.1, fun c hc => ⟨?_, ?_, hplain c (List.mem_append_left _ hc)⟩⟩
      · rintro rfl
        exact hcolon hc
      · rintro rfl
        exact hfront.2 hc
    · refine ⟨none, _, rfl, fun _ hs => (nomatch hs), fun _ s r heq => ?_⟩
      by_cases hs : ':' ∈ s
      · exact .inr (.inl hs)
      · obtain ⟨rfl, -⟩ := append_cons_inj hcolon hs heq
        tauto

/-- The authority, if there is one, stands between `//` and the next slash. -/
theorem exists_path (h : List Char) (hplain : ∀ c ∈ h, plain c = true) :
    ∃ (authority : Option Authority) (path : List Char),
      h = (authority.elim [] fun a => '/' :: '/' :: a.text) ++ path ∧
      (authority.isSome → path = [] ∨ path.head? = some '/') ∧
      (authority = none → path = h ∧ ¬"//".toList <+: path) := by
  by_cases hslashes : "//".toList <+: h
  · obtain ⟨t, rfl⟩ := hslashes
    obtain ⟨front, back, rfl, hslash⟩ := exists_cut '/' t
    have hfront : ∀ c ∈ front, c ≠ '/' ∧ plain c = true := by
      intro c hc
      refine ⟨?_, hplain c (List.mem_append_right _ (List.mem_append_left _ hc))⟩
      rintro rfl
      exact hslash hc
    obtain ⟨a, rfl⟩ := exists_authority front hfront
    refine ⟨some a, _, rfl, fun _ => ?_, fun hnone => nomatch hnone⟩
    cases back with
    | none => exact .inl rfl
    | some back => exact .inr rfl
  · exact ⟨none, h, rfl, fun hsome => (nomatch hsome), fun _ => ⟨rfl, hslashes⟩⟩

/-- **Every text has components.** -/
theorem exists_components (u : List Char) : ∃ c : Components, c.text = u := by
  obtain ⟨body, fragment, rfl, hhash⟩ := exists_cut '#' u
  obtain ⟨hier, query, rfl, hmark⟩ := exists_cut '?' body
  have hhier : ∀ c ∈ hier, plain c = true := by
    intro c hc
    rw [plain, Bool.and_eq_true, decide_eq_true_eq, decide_eq_true_eq]
    constructor
    · rintro rfl
      exact hmark hc
    · rintro rfl
      exact hhash (List.mem_append_left _ hc)
  obtain ⟨scheme, rest, rfl, hscheme, hnone⟩ := exists_scheme hier hhier
  have hrest : ∀ c ∈ rest, plain c = true := fun c hc => hhier c (List.mem_append_right _ hc)
  obtain ⟨authority, path, rfl, habsolute, hmissing⟩ := exists_path rest hrest
  have hquery : ∀ q ∈ query, '#' ∉ q := by
    intro q hq hmem
    refine hhash (List.mem_append_right _ ?_)
    rw [show query = some q from hq]
    exact List.mem_cons_of_mem _ hmem
  have hpath : ∀ c ∈ path, plain c = true := fun c hc => hrest c (List.mem_append_right _ hc)
  have hcolon : scheme = none → authority = none →
      ∀ s r, path = s ++ ':' :: r → s = [] ∨ ':' ∈ s ∨ '/' ∈ s := by
    intro hs ha s r heq
    exact hnone hs s r ((hmissing ha).1 ▸ heq)
  refine ⟨⟨scheme, authority, path, query, fragment, hscheme, hpath, habsolute, hcolon,
    fun ha => (hmissing ha).2, hquery⟩, ?_⟩
  simp only [Components.text, Components.hierarchy, Components.schemeText,
    Components.authorityText, Components.suffixText, List.append_assoc]

/-- **No secret reaches the redacted text**: whatever the components of a text are, with other
    characters between the delimiters of its userinfo, its query and its fragment the redacted
    text is the same. -/
theorem redactedUri_hides (u : List Char) :
    (∃ c : Components, c.text = u) ∧
    ∀ (c : Components) (s : Secrets) (h : c.secrets.Obscures s), c.text = u →
      redactedUri (c.withSecrets s h).text = redactedUri u := by
  refine ⟨exists_components u, ?_⟩
  rintro c s h rfl
  rw [Components.redactedUri_text, Components.redactedUri_text, Components.redacted_withSecrets]

/-- A signed link with a password. -/
def signedLink : Components where
  scheme := some ['s', '3']
  authority := some
    { userinfo := some ['m', 'e', ':', 'p', 'w']
      host := ['b']
      userinfo_plain := by simp [plain]
      host_plain := by simp [plain]
      host_last := by decide }
  path := ['/', 'k']
  query := some ['s', 'i', 'g', '=', '1']
  fragment := none
  scheme_plain := by simp [plain]
  path_plain := by simp [plain]
  path_absolute _ := .inr rfl
  no_scheme h := nomatch h
  no_authority h := nomatch h
  query_plain := by simp

theorem redactedUri_hides_link :
    redactedUri "s3://root:12345@b/k?2".toList = redactedUri "s3://me:pw@b/k?sig=1".toList :=
  (redactedUri_hides _).2 signedLink
    ⟨some ['r', 'o', 'o', 't', ':', '1', '2', '3', '4', '5'], some ['2'], none⟩
    ⟨rfl, rfl, rfl⟩ rfl

end Sirius.Io.RedactedUri
