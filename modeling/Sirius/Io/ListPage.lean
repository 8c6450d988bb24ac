import Sirius.Io.ListParser

/-!
# Pages of a listing

The documents that a `ListObjectsV2` server may send for a page, and that
`parse_list_objects_v2` reads the page out of them. A document is a prologue, the root element and
blanks. In the root there are the `<Contents>` blocks, in the order of the entries, the fields of
the page, and any markup of other names, before, between and behind them; and so it is in a block.

* `Escapes`: a text with its special characters as entities.
* `Item`, `Document`: what stands in the root, and around it.
* `elementText_render`: the search for an element finds the element.
* `list_page_round_trip`: the parser gives the page back, and of a part of the document nothing
  else.
-/

namespace Sirius.Io.ListParser

open Sirius.Common.Search
open Sirius.Common.Text

/-! ## Escaped text -/

/-- A character as it is, or as an entity. Only quotes may be either. -/
def EscapesChar (c : Char) (e : List Char) : Prop :=
  (e, c) ∈ entities ∨ (e = [c] ∧ c ≠ '&' ∧ c ≠ '<' ∧ c ≠ '>')

/-- The second text is the first one with its special characters as entities. -/
def Escapes (s r : List Char) : Prop :=
  ∃ parts : List (Char × List Char), (∀ p ∈ parts, EscapesChar p.1 p.2) ∧
    s = parts.map Prod.fst ∧ r = parts.flatMap Prod.snd

theorem xmlUnescape_append {c : Char} {e : List Char} (h : EscapesChar c e) (r : List Char) :
    xmlUnescape (e ++ r) = c :: xmlUnescape r := by
  rcases h with h | ⟨rfl, hamp, -, -⟩
  · simp only [entities, List.mem_cons, List.not_mem_nil, or_false, Prod.mk.injEq] at h
    rcases h with ⟨rfl, rfl⟩ | ⟨rfl, rfl⟩ | ⟨rfl, rfl⟩ | ⟨rfl, rfl⟩ | ⟨rfl, rfl⟩
    · exact xmlUnescape.eq_def _
    · exact xmlUnescape.eq_def _
    · exact xmlUnescape.eq_def _
    · exact xmlUnescape.eq_def _
    · exact xmlUnescape.eq_def _
  · rw [List.singleton_append, xmlUnescape, if_neg hamp]

/-- **What was escaped is given back.** -/
theorem Escapes.xmlUnescape_eq {s r : List Char} (h : Escapes s r) : xmlUnescape r = s := by
  obtain ⟨parts, hparts, rfl, rfl⟩ := h
  induction parts with
  | nil => rw [List.flatMap_nil, List.map_nil, xmlUnescape]
  | cons p parts ih =>
    rw [List.forall_mem_cons] at hparts
    rw [List.flatMap_cons, xmlUnescape_append hparts.1, ih hparts.2, List.map_cons]

/-- What stands at the ends of a character's text. -/
theorem EscapesChar.ends {c : Char} {e : List Char} (h : EscapesChar c e) :
    (∃ a, e.head? = some a ∧ (a = c ∨ a = '&')) ∧ (∃ a, e.getLast? = some a ∧ (a = c ∨ a = ';')) ∧
      '<' ∉ e := by
  rcases h with h | ⟨rfl, -, hlt, -⟩
  · simp only [entities, List.mem_cons, List.not_mem_nil, or_false, Prod.mk.injEq] at h
    rcases h with ⟨rfl, rfl⟩ | ⟨rfl, rfl⟩ | ⟨rfl, rfl⟩ | ⟨rfl, rfl⟩ | ⟨rfl, rfl⟩
    · exact ⟨⟨'&', rfl, .inr rfl⟩, ⟨';', rfl, .inr rfl⟩, by decide⟩
    · exact ⟨⟨'&', rfl, .inr rfl⟩, ⟨';', rfl, .inr rfl⟩, by decide⟩
    · exact ⟨⟨'&', rfl, .inr rfl⟩, ⟨';', rfl, .inr rfl⟩, by decide⟩
    · exact ⟨⟨'&', rfl, .inr rfl⟩, ⟨';', rfl, .inr rfl⟩, by decide⟩
    · exact ⟨⟨'&', rfl, .inr rfl⟩, ⟨';', rfl, .inr rfl⟩, by decide⟩
  · refine ⟨⟨c, rfl, .inl rfl⟩, ⟨c, rfl, .inl rfl⟩, ?_⟩
    rw [List.mem_singleton]
    exact hlt.symm

/-- Text without surrounding blanks has none when it is escaped. -/
theorem Escapes.trimmed {s r : List Char} (h : Escapes s r) (hs : Trimmed isSpace s) :
    Trimmed isSpace r := by
  obtain ⟨parts, hparts, rfl, rfl⟩ := h
  constructor
  · intro a ha
    cases parts with
    | nil => cases ha
    | cons p parts =>
      obtain ⟨⟨b, hb, hcase⟩, -⟩ := (hparts p List.mem_cons_self).ends
      rw [List.flatMap_cons, List.head?_append, hb, Option.some_or] at ha
      cases ha
      rcases hcase with rfl | rfl
      · exact hs.first _ rfl
      · rfl
  · intro a ha
    rcases List.eq_nil_or_concat parts with rfl | ⟨parts, p, rfl⟩
    · cases ha
    · rw [List.concat_eq_append] at hparts hs ha
      obtain ⟨-, ⟨b, hb, hcase⟩, -⟩ := (hparts p (by simp)).ends
      rw [List.flatMap_append, List.flatMap_singleton, List.getLast?_append, hb,
        Option.some_or] at ha
      cases ha
      rcases hcase with rfl | rfl
      · exact hs.last _ (by simp)
      · rfl

/-! ## Markup -/

/-- The names that the parser looks for in the root. -/
inductive Tag where
  | contents
  | key
  | size
  | etag
  | isTruncated
  | nextContinuationToken
  deriving DecidableEq, Repr

namespace Tag

def name : Tag → List Char
  | contents => "Contents".toList
  | key => "Key".toList
  | size => "Size".toList
  | etag => "ETag".toList
  | isTruncated => "IsTruncated".toList
  | nextContinuationToken => "NextContinuationToken".toList

theorem name_plain (tag : Tag) : '<' ∉ tag.name ∧ '>' ∉ tag.name ∧ tag.name.head? ≠ some '/' := by
  cases tag <;> decide

theorem name_injective {tag tag' : Tag} (h : tag.name = tag'.name) : tag = tag' := by
  cases tag <;> cases tag' <;> first | rfl | exact absurd h (by decide)

end Tag

section Marks

variable {mark : List Char} {tag tag' : Tag}

theorem bracketed_openTag (tag : Tag) : Bracketed '<' '>' (openTag tag.name) :=
  ⟨tag.name, rfl, tag.name_plain.2.1⟩

theorem bracketed_closeTag (tag : Tag) : Bracketed '<' '>' (closeTag tag.name) :=
  ⟨'/' :: tag.name, rfl, by simpa using tag.name_plain.2.1⟩

theorem bracketed_rootClose : Bracketed '<' '>' rootClose :=
  ⟨"/ListBucketResult".toList, rfl, by decide⟩

theorem balanced_openTag (tag : Tag) : Balanced '<' '>' (openTag tag.name) :=
  balanced_tag tag.name tag.name_plain.1 (by decide)

theorem balanced_closeTag (tag : Tag) : Balanced '<' '>' (closeTag tag.name) :=
  balanced_tag ('/' :: tag.name) (by simpa using tag.name_plain.1) (by decide)

theorem eq_of_infix_openTag (hmark : Bracketed '<' '>' mark) (h : mark <:+: openTag tag.name) :
    mark = openTag tag.name :=
  eq_of_infix_tag hmark tag.name_plain.1 tag.name_plain.2.1 (by decide) h

theorem eq_of_infix_closeTag (hmark : Bracketed '<' '>' mark) (h : mark <:+: closeTag tag.name) :
    mark = closeTag tag.name := by
  have hlo : '<' ∉ '/' :: tag.name := by simpa using tag.name_plain.1
  have hhi : '>' ∉ '/' :: tag.name := by simpa using tag.name_plain.2.1
  exact eq_of_infix_tag hmark hlo hhi (by decide) h

theorem openTag_ne_closeTag : openTag tag.name ≠ closeTag tag'.name := by
  intro h
  have hhead : tag.name ++ ['>'] = '/' :: (tag'.name ++ ['>']) := (List.cons.inj h).2
  have := tag.name_plain.2.2
  cases hname : tag.name with
  | nil => cases tag <;> cases hname
  | cons c name =>
    rw [hname, List.cons_append] at hhead
    rw [hname, (List.cons.inj hhead).1] at this
    exact this rfl

theorem openTag_injective (h : openTag tag.name = openTag tag'.name) : tag = tag' :=
  Tag.name_injective (List.append_cancel_right (List.cons.inj h).2)

theorem closeTag_injective (h : closeTag tag.name = closeTag tag'.name) : tag = tag' :=
  Tag.name_injective (List.append_cancel_right (List.cons.inj (List.cons.inj h).2).2)

theorem rootClose_ne_openTag : rootClose ≠ openTag tag.name := by
  cases tag <;> decide

theorem rootClose_ne_closeTag : rootClose ≠ closeTag tag.name := by
  cases tag <;> decide

end Marks

/-- What the parser looks for in the root. -/
def IsMark (mark : List Char) : Prop :=
  (∃ tag : Tag, mark = openTag tag.name ∨ mark = closeTag tag.name) ∨ mark = rootClose

theorem IsMark.bracketed {mark : List Char} (h : IsMark mark) : Bracketed '<' '>' mark := by
  rcases h with ⟨tag, rfl | rfl⟩ | rfl
  · exact bracketed_openTag tag
  · exact bracketed_closeTag tag
  · exact bracketed_rootClose

/-- Markup or text without any of the tags that the parser looks for: its elements have other
    names, and it leaves no tag open. -/
structure OtherMarkup (t : List Char) : Prop where
  balanced : Balanced '<' '>' t
  names : ∀ mark, IsMark mark → ¬mark <:+: t

/-- A field, with the text in it, or other markup. -/
inductive Piece where
  | field (tag : Tag) (text : List Char)
  | other (text : List Char)
  deriving DecidableEq, Repr

namespace Piece

def text : Piece → List Char
  | field tag t => openTag tag.name ++ (t ++ closeTag tag.name)
  | other t => t

/-- The text of a field is escaped, and holds no tag. -/
def WellFormed : Piece → Prop
  | field _ t => '<' ∉ t
  | other t => OtherMarkup t

variable {p : Piece} {mark : List Char}

theorem WellFormed.balanced (h : p.WellFormed) : Balanced '<' '>' p.text := by
  cases p with
  | field tag t =>
    exact (balanced_openTag tag).append ((balanced_of_not_mem h).append (balanced_closeTag tag))
  | other t => exact h.balanced

/-- The tags of a piece are those of its field. -/
theorem WellFormed.tags (h : p.WellFormed) (hmark : IsMark mark) (hin : mark <:+: p.text) :
    ∃ tag t, p = field tag t ∧ (mark = openTag tag.name ∨ mark = closeTag tag.name) := by
  cases p with
  | other t => exact absurd hin (h.names mark hmark)
  | field tag t =>
    refine ⟨tag, t, rfl, ?_⟩
    have hb := hmark.bracketed
    rcases (infix_append_iff hb (balanced_openTag tag)).mp hin with hin | hin
    · exact .inl (eq_of_infix_openTag hb hin)
    · rcases (infix_append_iff hb (balanced_of_not_mem h)).mp hin with hin | hin
      · obtain ⟨body, rfl, -⟩ := hb
        exact absurd (hin.subset List.mem_cons_self) h
      · exact .inr (eq_of_infix_closeTag hb hin)

end Piece

/-- Pieces one after the other. -/
def render (ps : List Piece) : List Char := ps.flatMap Piece.text

section Render

variable {ps : List Piece} (h : ∀ p ∈ ps, p.WellFormed)
include h

theorem balanced_render : Balanced '<' '>' (render ps) := by
  induction ps with
  | nil => exact balanced_of_not_mem (by simp [render])
  | cons p ps ih =>
    rw [List.forall_mem_cons] at h
    exact h.1.balanced.append (ih h.2)

theorem tags_render {mark : List Char} (hmark : IsMark mark) (hin : mark <:+: render ps) :
    ∃ tag t, Piece.field tag t ∈ ps ∧ (mark = openTag tag.name ∨ mark = closeTag tag.name) := by
  induction ps with
  | nil =>
    obtain ⟨body, rfl, -⟩ := hmark.bracketed
    exact absurd (hin.subset List.mem_cons_self) (by simp [render])
  | cons p ps ih =>
    rw [List.forall_mem_cons] at h
    rcases (infix_append_iff hmark.bracketed h.1.balanced).mp hin with hin | hin
    · obtain ⟨tag, t, rfl, hcase⟩ := h.1.tags hmark hin
      exact ⟨tag, t, List.mem_cons_self, hcase⟩
    · obtain ⟨tag, t, hmem, hcase⟩ := ih h.2 hin
      exact ⟨tag, t, List.mem_cons_of_mem _ hmem, hcase⟩

end Render

/-! ## The search for an element -/

variable {s t a b : List Char}

/-- Balanced text without the tag is passed over. -/
theorem elementText_skip (tag : Tag) (hs : Balanced '<' '>' s)
    (hnot : ¬openTag tag.name <:+: s) : elementText (s ++ t) tag.name = elementText t tag.name := by
  rw [elementText, elementText, cutFirst_skip (bracketed_openTag tag) hs hnot]
  cases cutFirst (openTag tag.name) t <;> rfl

/-- The field itself. -/
theorem elementText_field (tag : Tag) (ht : '<' ∉ t) (rest : List Char) :
    elementText ((Piece.field tag t).text ++ rest) tag.name = some t := by
  have hclose : cutFirst (closeTag tag.name) (t ++ (closeTag tag.name ++ rest)) =
      some (t, rest) := by
    rw [cutFirst_skip (bracketed_closeTag tag) (balanced_of_not_mem ht), cutFirst_self]
    · simp
    · intro hin
      exact ht (hin.subset List.mem_cons_self)
  rw [elementText, Piece.text, List.append_assoc, List.append_assoc, cutFirst_self]
  dsimp only
  rw [hclose]

/-- A part of a text is a field of the name, or it is passed over. -/
def Searched (tag : Tag) (part : List Char) (value : Option (List Char)) : Prop :=
  match value with
  | none => Balanced '<' '>' part ∧ ¬openTag tag.name <:+: part
  | some t => '<' ∉ t ∧ part = (Piece.field tag t).text

/-- **The search for an element finds the first field of its name.** -/
theorem elementText_flatMap {α : Type*} {f : α → List Char} {value : α → Option (List Char)}
    {tag : Tag} {l : List α} (h : ∀ a ∈ l, Searched tag (f a) (value a)) :
    elementText (l.flatMap f) tag.name = l.findSome? value := by
  induction l with
  | nil =>
    have hnone : cutFirst (openTag tag.name) [] = none :=
      cutFirst_eq_none.mpr (by simp [openTag])
    rw [List.flatMap_nil, elementText, hnone]
    rfl
  | cons a l ih =>
    rw [List.forall_mem_cons] at h
    obtain ⟨ha, hl⟩ := h
    rw [List.flatMap_cons, List.findSome?_cons]
    cases hvalue : value a with
    | none =>
      rw [hvalue] at ha
      rw [elementText_skip tag ha.1 ha.2]
      exact ih hl
    | some t =>
      rw [hvalue] at ha
      rw [ha.2, elementText_field tag ha.1]

/-- The text of a field of the name. -/
def Piece.value (tag : Tag) : Piece → Option (List Char)
  | .field tag' t => if tag' = tag then some t else none
  | .other _ => none

/-- The text of the first field of a name. -/
def lookup (tag : Tag) (ps : List Piece) : Option (List Char) := ps.findSome? (Piece.value tag)

theorem Piece.WellFormed.searched {p : Piece} (h : p.WellFormed) (tag : Tag) :
    Searched tag p.text (p.value tag) := by
  have hskip (hp : ∀ t, p ≠ .field tag t) : ¬openTag tag.name <:+: p.text := by
    intro hin
    obtain ⟨tag', t, rfl, heq | heq⟩ := h.tags (.inl ⟨tag, .inl rfl⟩) hin
    · exact hp t (by rw [openTag_injective heq])
    · exact openTag_ne_closeTag heq
  cases p with
  | other t => exact ⟨h.balanced, hskip (by simp)⟩
  | field tag' t =>
    rw [value]
    split_ifs with htag
    · subst htag
      exact ⟨h, rfl⟩
    · exact ⟨h.balanced, hskip (by simp [htag])⟩

theorem elementText_render {ps : List Piece} (h : ∀ p ∈ ps, p.WellFormed) (tag : Tag) :
    elementText (render ps) tag.name = lookup tag ps :=
  elementText_flatMap fun p hp => (h p hp).searched tag

/-! ## One entry -/

/-- An object that a listing may hold. -/
structure Entry.Valid (e : Entry) : Prop where
  key : e.key ≠ []
  size : e.size < 2 ^ 64
  etag : Trimmed isSpace e.etag

/-- The block of an entry: its fields in any order, among other markup. An empty tag may be left
    out. -/
structure ShowsEntry (e : Entry) (ps : List Piece) : Prop where
  wellFormed : ∀ p ∈ ps, p.WellFormed
  fields : ∀ tag t, Piece.field tag t ∈ ps → tag ∈ [Tag.key, .size, .etag]
  key : ∃ r, lookup .key ps = some r ∧ Escapes e.key r
  size : lookup .size ps = some (Nat.toDigits 10 e.size)
  etag : (∃ r, lookup .etag ps = some r ∧ Escapes e.etag r) ∨
    (lookup .etag ps = none ∧ e.etag = [])

/-- The guarded sum of digits is the number that they write. -/
theorem sizeLoop_eq (text : List Char) {digits : List Char}
    (hdigits : ∀ c ∈ digits, c.isDigit = true) {value : ℕ} (hle : Nat.ofDigitChars 10 digits value ≤ uint64Max) :
    sizeLoop text value digits = .ok (Nat.ofDigitChars 10 digits value) := by
  induction digits generalizing value with
  | nil => rfl
  | cons c digits ih =>
    rw [List.forall_mem_cons] at hdigits
    have hcons : Nat.ofDigitChars 10 (c :: digits) value =
        Nat.ofDigitChars 10 digits (value * 10 + (c.toNat - 48)) := by
      rw [Nat.ofDigitChars_cons, Nat.mul_comm]
      rfl
    rw [hcons] at hle ⊢
    have hgrows : value * 10 + (c.toNat - 48) ≤
        Nat.ofDigitChars 10 digits (value * 10 + (c.toNat - 48)) := by
      rw [Nat.ofDigitChars_eq_ofDigitChars_zero]
      exact le_add_right (Nat.le_mul_of_pos_left _ (by positivity))
    have hguard : ¬value > (uint64Max - (c.toNat - 48)) / 10 := by
      rw [not_lt, Nat.le_div_iff_mul_le (by norm_num)]
      omega
    rw [sizeLoop, hdigits.1]
    simp only [Bool.not_true, Bool.false_eq_true, if_false, if_neg hguard]
    exact ih hdigits.2 hle

theorem isSpace_of_isDigit {c : Char} (h : c.isDigit = true) : isSpace c = false := by
  by_contra hspace
  rw [Bool.not_eq_false] at hspace
  simp only [isSpace, Bool.or_eq_true, decide_eq_true_eq] at hspace
  rcases hspace with ((((rfl | rfl) | rfl) | rfl) | rfl) | rfl <;> cases h

theorem parseSize_toDigits {n : ℕ} (h : n < 2 ^ 64) : parseSize (Nat.toDigits 10 n) = .ok n := by
  have hdigits : ∀ c ∈ Nat.toDigits 10 n, c.isDigit = true :=
    fun c hc => Nat.isDigit_of_mem_toDigits (by norm_num) (by norm_num) hc
  have htrimmed : Trimmed isSpace (Nat.toDigits 10 n) :=
    ⟨fun a ha => isSpace_of_isDigit (hdigits a (List.mem_of_head? ha)),
      fun a ha => isSpace_of_isDigit (hdigits a (List.mem_of_getLast? ha))⟩
  have hne : (Nat.toDigits 10 n).isEmpty = false := by
    rw [List.isEmpty_eq_false_iff]
    exact Nat.toDigits_ne_nil
  have hvalue : Nat.ofDigitChars 10 (Nat.toDigits 10 n) 0 = n := Nat.ofDigitChars_ten_toDigits
  rw [parseSize, trim_eq_self htrimmed, hne]
  simp only [Bool.false_eq_true, if_false]
  rw [sizeLoop_eq _ hdigits, hvalue]
  rw [hvalue, uint64Max]
  omega

/-- **An entry is read out of its block.** -/
theorem parseEntry_render {e : Entry} {ps : List Piece} (he : e.Valid) (h : ShowsEntry e ps) :
    parseEntry (render ps) = .ok e := by
  obtain ⟨r, hkey, hescapes⟩ := h.key
  have hsearch (tag : Tag) := elementText_render h.wellFormed tag
  have hempty : (xmlUnescape r).isEmpty = false := by
    rw [hescapes.xmlUnescape_eq, List.isEmpty_eq_false_iff]
    exact he.key
  have hetag : ((elementText (render ps) Tag.etag.name).map fun etag =>
      xmlUnescape (trim isSpace etag)).getD [] = e.etag := by
    rw [hsearch]
    rcases h.etag with ⟨r, hr, hesc⟩ | ⟨hr, hnil⟩
    · rw [hr, Option.map_some, Option.getD_some, trim_eq_self (hesc.trimmed he.etag),
        hesc.xmlUnescape_eq]
    · rw [hr, hnil]
      rfl
  rw [parseEntry, show "Key".toList = Tag.key.name from rfl, hsearch, hkey]
  simp only [hempty, Bool.false_eq_true, if_false]
  rw [show "Size".toList = Tag.size.name from rfl, hsearch, h.size,
    show "ETag".toList = Tag.etag.name from rfl, hetag, hescapes.xmlUnescape_eq]
  simp only [parseSize_toDigits he.size]
  rfl

/-! ## The content of the root -/

/-- What stands in the root: a field of the page, other markup, or the block of an entry. -/
inductive Item where
  | piece (p : Piece)
  | contents (ps : List Piece)
  deriving DecidableEq, Repr

namespace Item

def text : Item → List Char
  | piece p => p.text
  | contents ps => openTag Tag.contents.name ++ (render ps ++ closeTag Tag.contents.name)

/-- The fields of the page are in the root, those of the entries in the blocks. -/
def WellFormed : Item → Prop
  | piece p => p.WellFormed ∧ ∀ tag t, p = .field tag t →
    tag ∈ [Tag.isTruncated, .nextContinuationToken]
  | contents ps => (∀ p ∈ ps, p.WellFormed) ∧ ∀ tag t, Piece.field tag t ∈ ps →
    tag ∈ [Tag.key, .size, .etag]

/-- The names that may be in an item. -/
def names : Item → List Tag
  | piece _ => [.isTruncated, .nextContinuationToken]
  | contents _ => [.contents, .key, .size, .etag]

/-- The block of an entry. -/
def block : Item → Option (List Piece)
  | piece _ => none
  | contents ps => some ps

/-- The text of a field of the page. -/
def value (tag : Tag) : Item → Option (List Char)
  | piece p => p.value tag
  | contents _ => none

variable {item : Item} {mark : List Char}

theorem WellFormed.balanced (h : item.WellFormed) : Balanced '<' '>' item.text := by
  cases item with
  | piece p => exact h.1.balanced
  | contents ps =>
    exact (balanced_openTag _).append ((balanced_render h.1).append (balanced_closeTag _))

/-- The tags of an item. -/
theorem WellFormed.tags (h : item.WellFormed) (hmark : IsMark mark) (hin : mark <:+: item.text) :
    ∃ tag ∈ item.names, mark = openTag tag.name ∨ mark = closeTag tag.name := by
  have hb := hmark.bracketed
  cases item with
  | piece p =>
    obtain ⟨tag, t, hp, hcase⟩ := h.1.tags hmark hin
    exact ⟨tag, h.2 tag t hp, hcase⟩
  | contents ps =>
    rcases (infix_append_iff hb (balanced_openTag _)).mp hin with hin | hin
    · exact ⟨.contents, List.mem_cons_self, .inl (eq_of_infix_openTag hb hin)⟩
    · rcases (infix_append_iff hb (balanced_render h.1)).mp hin with hin | hin
      · obtain ⟨tag, t, hmem, hcase⟩ := tags_render h.1 hmark hin
        exact ⟨tag, List.mem_cons_of_mem _ (h.2 tag t hmem), hcase⟩
      · exact ⟨.contents, List.mem_cons_self, .inr (eq_of_infix_closeTag hb hin)⟩

theorem WellFormed.searched (h : item.WellFormed) {tag : Tag}
    (htag : tag ∈ [Tag.isTruncated, .nextContinuationToken]) :
    Searched tag item.text (item.value tag) := by
  cases item with
  | piece p => exact h.1.searched tag
  | contents ps =>
    refine ⟨h.balanced, fun hin => ?_⟩
    obtain ⟨tag', hmem, heq | heq⟩ := h.tags (.inl ⟨tag, .inl rfl⟩) hin
    · rw [openTag_injective heq] at htag
      have hdisjoint : ∀ tag : Tag, tag ∈ [Tag.isTruncated, .nextContinuationToken] →
          tag ∉ [Tag.contents, .key, .size, .etag] := by
        intro tag
        cases tag <;> decide
      exact hdisjoint tag' htag hmem
    · exact openTag_ne_closeTag heq

end Item

/-- The text of the root's content. -/
def bodyText (items : List Item) : List Char := items.flatMap Item.text

section Body

variable {items : List Item} (h : ∀ item ∈ items, item.WellFormed)
include h

theorem balanced_bodyText : Balanced '<' '>' (bodyText items) := by
  induction items with
  | nil => exact balanced_of_not_mem (by simp [bodyText])
  | cons item items ih =>
    rw [List.forall_mem_cons] at h
    exact h.1.balanced.append (ih h.2)

/-- The close of the root is not in its content. -/
theorem rootClose_not_in_body : ¬rootClose <:+: bodyText items := by
  induction items with
  | nil => exact fun hin => absurd (List.infix_nil.mp hin) (by decide)
  | cons item items ih =>
    rw [List.forall_mem_cons] at h
    intro hin
    rcases (infix_append_iff bracketed_rootClose h.1.balanced).mp hin with hin | hin
    · obtain ⟨tag, -, heq | heq⟩ := h.1.tags (.inr rfl) hin
      · exact rootClose_ne_openTag heq
      · exact rootClose_ne_closeTag heq
    · exact ih h.2 hin

theorem elementText_bodyText (tag : Tag)
    (htag : tag ∈ [Tag.isTruncated, .nextContinuationToken]) :
    elementText (bodyText items) tag.name = items.findSome? (Item.value tag) :=
  elementText_flatMap fun item hitem => (h item hitem).searched htag

end Body

theorem contentsLoop_of_none {body : List Char}
    (h : ¬openTag Tag.contents.name <:+: body) : contentsLoop body = .ok [] := by
  rw [contentsLoop]
  split
  · rfl
  · rename_i heq
    rw [show "Contents".toList = Tag.contents.name from rfl, cutFirst_eq_none.mpr h] at heq
    cases heq

theorem contentsLoop_of_block {body front s block rest : List Char} {e : Entry}
    (hopen : cutFirst (openTag Tag.contents.name) body = some (front, s))
    (hclose : cutFirst (closeTag Tag.contents.name) s = some (block, rest))
    (hentry : parseEntry block = .ok e) :
    contentsLoop body = (contentsLoop rest).map (e :: ·) := by
  rw [contentsLoop]
  split
  · rename_i heq
    rw [show "Contents".toList = Tag.contents.name from rfl, hopen] at heq
    cases heq
  · rename_i heq
    rw [show "Contents".toList = Tag.contents.name from rfl, hopen] at heq
    cases heq
    split
    · rename_i heq
      rw [show "Contents".toList = Tag.contents.name from rfl, hclose] at heq
      cases heq
    · rename_i heq
      rw [show "Contents".toList = Tag.contents.name from rfl, hclose] at heq
      cases heq
      rw [hentry]

/-- **The entries are read out of their blocks, in order.** -/
theorem contentsLoop_bodyText {items : List Item} {entries : List Entry}
    (h : ∀ item ∈ items, item.WellFormed) (hvalid : ∀ e ∈ entries, e.Valid)
    (hshows : List.Forall₂ ShowsEntry entries (items.filterMap Item.block)) {front : List Char}
    (hfront : Balanced '<' '>' front) (hnot : ¬openTag Tag.contents.name <:+: front) :
    contentsLoop (front ++ bodyText items) = .ok entries := by
  induction items generalizing front entries with
  | nil =>
    rw [List.filterMap_nil] at hshows
    cases hshows
    rw [bodyText, List.flatMap_nil, List.append_nil]
    exact contentsLoop_of_none hnot
  | cons item items ih =>
    rw [List.forall_mem_cons] at h
    rw [bodyText, List.flatMap_cons]
    cases item with
    | piece p =>
      rw [← List.append_assoc]
      refine ih h.2 hvalid hshows (hfront.append h.1.balanced) fun hin => ?_
      rcases (infix_append_iff (bracketed_openTag _) hfront).mp hin with hin | hin
      · exact hnot hin
      · obtain ⟨tag, hmem, heq | heq⟩ := h.1.tags (.inl ⟨.contents, .inl rfl⟩) hin
        · rw [← openTag_injective heq, Item.names] at hmem
          exact absurd hmem (by decide)
        · exact openTag_ne_closeTag heq
    | contents ps =>
      rw [List.filterMap_cons_some (show Item.block (.contents ps) = some ps from rfl)] at hshows
      cases hshows with
      | @cons e _ entries _ hentry hrest =>
        rw [List.forall_mem_cons] at hvalid
        have hopen : cutFirst (openTag Tag.contents.name)
            (front ++ ((Item.contents ps).text ++ items.flatMap Item.text)) =
            some (front, render ps ++ (closeTag Tag.contents.name ++ bodyText items)) := by
          rw [cutFirst_skip (bracketed_openTag _) hfront hnot, Item.text, List.append_assoc,
            cutFirst_self]
          simp [bodyText]
        have hclose : cutFirst (closeTag Tag.contents.name)
            (render ps ++ (closeTag Tag.contents.name ++ bodyText items)) =
            some (render ps, bodyText items) := by
          rw [cutFirst_skip (bracketed_closeTag _) (balanced_render h.1.1), cutFirst_self]
          · simp
          · intro hin
            obtain ⟨tag, t, hmem, heq | heq⟩ := tags_render h.1.1 (.inl ⟨.contents, .inr rfl⟩) hin
            · exact openTag_ne_closeTag heq.symm
            · have := h.1.2 tag t hmem
              rw [← closeTag_injective heq] at this
              exact absurd this (by decide)
        have hparse := parseEntry_render hvalid.1 hentry
        have hloop : contentsLoop ([] ++ bodyText items) = .ok entries :=
          ih h.2 hvalid.2 hrest (balanced_of_not_mem (by simp)) (by simp [openTag])
        rw [List.nil_append] at hloop
        rw [contentsLoop_of_block hopen hclose hparse, hloop]
        rfl

/-! ## Documents -/

/-- A document around a root: an optional XML declaration between blanks, the attributes of the
    root's tag, its content, and blanks. -/
structure Document where
  leading : List Char
  declaration : Option (List Char)
  between : List Char
  attributes : List Char
  items : List Item
  trailing : List Char
  leading_blank : ∀ c ∈ leading, isSpace c = true
  declaration_plain : ∀ d ∈ declaration, '<' ∉ d ∧ '>' ∉ d
  between_blank : ∀ c ∈ between, isSpace c = true
  attributes_apart : attributes = [] ∨ ∃ c, attributes.head? = some c ∧ isXmlSpace c = true
  attributes_plain : '>' ∉ attributes
  items_wellFormed : ∀ item ∈ items, item.WellFormed
  trailing_blank : ∀ c ∈ trailing, isSpace c = true

namespace Document

variable (d : Document)

def declarationText : List Char :=
  d.declaration.elim [] fun t => "<?xml".toList ++ (t ++ "?>".toList)

/-- What comes before the root. -/
def prologue : List Char := d.leading ++ (d.declarationText ++ d.between)

/-- The text of the document. -/
def text : List Char :=
  d.prologue ++ (rootOpen ++ (d.attributes ++ '>' :: (bodyText d.items ++
    (rootClose ++ d.trailing))))

/-- The document is one for the page. -/
structure Shows (p : Page) : Prop where
  entries : List.Forall₂ ShowsEntry p.entries (d.items.filterMap Item.block)
  truncated : d.items.findSome? (Item.value .isTruncated) =
    some (if p.isTruncated then "true".toList else "false".toList)
  token : (∃ r, d.items.findSome? (Item.value .nextContinuationToken) = some r ∧
      Escapes p.nextContinuationToken r) ∨
    (d.items.findSome? (Item.value .nextContinuationToken) = none ∧ p.isTruncated = false ∧
      p.nextContinuationToken = [])

end Document

/-- A page that a server may send. -/
structure Page.Valid (p : Page) : Prop where
  entries : ∀ e ∈ p.entries, e.Valid
  token : Trimmed isSpace p.nextContinuationToken

/-! ## The root -/

/-- Text at no place of which the root's name starts is passed over. -/
theorem findRoot_skip (h : ∀ l r, s = l ++ r → r ≠ [] → ¬rootOpen <+: r ++ t) :
    findRoot (s ++ t) = (findRoot t).map fun p => (s ++ p.1, p.2) := by
  induction s with
  | nil =>
    rw [List.nil_append]
    cases findRoot t <;> rfl
  | cons c s ih =>
    have hhead := h [] (c :: s) rfl (List.cons_ne_nil c s)
    rw [List.cons_append] at hhead ⊢
    rw [findRoot, if_neg (fun hfound => hhead hfound.1),
      ih fun l r hs hr => h (c :: l) r (by rw [hs]; rfl) hr, Option.map_map]
    rfl

theorem findRoot_self {rest : List Char}
    (h : (rest.head?.any fun c => c = '>' || isXmlSpace c) = true) :
    findRoot (rootOpen ++ rest) = some ([], rest) := by
  have hcons : rootOpen ++ rest = '<' :: ("ListBucketResult".toList ++ rest) := rfl
  have hdrop : (rootOpen ++ rest).drop rootOpen.length = rest := List.drop_left
  rw [hcons, findRoot, ← hcons, hdrop, if_pos ⟨List.prefix_append _ _, h⟩]

theorem eq_of_findRoot (h : findRoot s = some (a, b)) : s = a ++ (rootOpen ++ b) := by
  induction s generalizing a with
  | nil => cases h
  | cons c s ih =>
    rw [findRoot] at h
    split_ifs at h with hroot
    · cases h
      rw [List.nil_append, List.prefix_iff_eq_append.mp hroot.1]
    · obtain ⟨⟨a', b'⟩, hrest, heq⟩ := Option.map_eq_some_iff.mp h
      cases heq
      rw [ih hrest, List.cons_append]

/-- What is found in the front part of a text is what is found in the text. -/
theorem findRoot_append (h : findRoot s = some (a, b)) (t : List Char) :
    findRoot (s ++ t) = some (a, b ++ t) := by
  induction s generalizing a with
  | nil => cases h
  | cons c s ih =>
    rw [findRoot] at h
    rw [List.cons_append, findRoot]
    split_ifs at h with hroot
    · cases h
      have hhead : (((c :: s).drop rootOpen.length ++ t).head?.any fun c =>
          c = '>' || isXmlSpace c) = true := by
        cases hrest : (c :: s).drop rootOpen.length with
        | nil =>
          rw [hrest] at hroot
          cases hroot.2
        | cons x rest =>
          rw [hrest] at hroot
          exact hroot.2
      rw [← List.cons_append, List.drop_append_of_le_length hroot.1.length_le,
        if_pos ⟨hroot.1.trans (List.prefix_append _ t), hhead⟩]
    · obtain ⟨⟨a', b'⟩, hrest, heq⟩ := Option.map_eq_some_iff.mp h
      cases heq
      -- the root that is found leaves room for the name and its end
      have hlength : rootOpen.length ≤ s.length := by
        rw [eq_of_findRoot hrest]
        simp only [List.length_append]
        omega
      have hnot : ¬(rootOpen <+: c :: (s ++ t) ∧
          (((c :: (s ++ t)).drop rootOpen.length).head?.any fun c => c = '>' || isXmlSpace c) =
            true) := by
        rintro ⟨hfront, hends⟩
        have hle : rootOpen.length ≤ (c :: s).length := by
          rw [List.length_cons]
          omega
        rw [← List.cons_append] at hfront hends
        rw [List.drop_append_of_le_length hle] at hends
        refine hroot ⟨List.prefix_of_prefix_length_le hfront (List.prefix_append _ t) hle, ?_⟩
        cases hdrop : (c :: s).drop rootOpen.length with
        | nil =>
          have := congrArg List.length hdrop
          rw [List.length_drop, List.length_cons, List.length_nil] at this
          omega
        | cons x rest =>
          rw [hdrop] at hends
          exact hends
      rw [if_neg hnot, ih hrest, Option.map_some]

/-! ## The round trip -/

theorem trim_blank (h : ∀ c ∈ t, isSpace c = true) : trim isSpace t = [] := by
  rw [trim, List.dropWhile_eq_nil_iff.mpr h]
  rfl

namespace Document

variable (d : Document)

/-- Without its blanks, the prologue is the declaration. -/
theorem trim_prologue : trim isSpace d.prologue = d.declarationText := by
  rw [prologue, trim_append_left d.leading_blank, trim_append_right d.between_blank]
  refine trim_eq_self ?_
  rw [declarationText]
  cases d.declaration with
  | none => exact ⟨fun a ha => (nomatch ha), fun a ha => (nomatch ha)⟩
  | some t =>
    refine ⟨fun a ha => ?_, fun a ha => ?_⟩
    · rw [Option.elim_some, List.head?_append] at ha
      cases ha
      rfl
    · rw [Option.elim_some, ← List.append_assoc, List.getLast?_append] at ha
      cases ha
      rfl

theorem prologueOnly_declarationText : prologueOnly d.declarationText = true := by
  rw [declarationText]
  cases hd : d.declaration with
  | none => rfl
  | some t =>
    have hplain := (d.declaration_plain t hd).2
    have hcut : cutFirst "?>".toList ("<?xml".toList ++ (t ++ "?>".toList)) =
        some ("<?xml".toList ++ t, []) := by
      have hfront : '>' ∉ "<?xml".toList ++ t := by
        rw [List.mem_append, not_or]
        exact ⟨by decide, hplain⟩
      have hself := cutFirst_self "?>".toList []
      rw [List.append_nil] at hself
      rw [← List.append_assoc, cutFirst_skip_of_forall, hself]
      · simp
      · -- the mark holds a closing bracket, and only the end of the declaration does
        intro l r heq hr hmark
        cases r with
        | nil => exact hr rfl
        | cons c r =>
          have hmark : ['?', '>'] <+: c :: (r ++ ['?', '>']) := hmark
          have hsecond : ['>'] <+: r ++ ['?', '>'] := (List.cons_prefix_cons.mp hmark).2
          cases r with
          | nil => exact absurd hsecond (by decide)
          | cons x r =>
            obtain ⟨rfl, -⟩ := List.cons_prefix_cons.mp hsecond
            exact hfront (heq ▸ List.mem_append_right l (by simp))
    have htake : ("<?xml".toList ++ (t ++ "?>".toList)).take 5 = "<?xml".toList := rfl
    rw [Option.elim_some, prologueOnly, hcut, htake]
    simp [trim]

/-- The only opening bracket of the prologue is that of the declaration. -/
theorem question_of_mem_prologue {l r : List Char} (heq : d.prologue = l ++ '<' :: r) :
    ∃ m, r = '?' :: m := by
  have hblank {s : List Char} (hs : ∀ c ∈ s, isSpace c = true) : '<' ∉ s :=
    fun hmem => absurd (hs _ hmem) (by decide)
  cases hd : d.declaration with
  | none =>
    have hmem : '<' ∈ d.prologue := heq ▸ List.mem_append_right l List.mem_cons_self
    rw [prologue, declarationText, hd, Option.elim_none, List.nil_append] at hmem
    rcases List.mem_append.mp hmem with hmem | hmem
    · exact absurd hmem (hblank d.leading_blank)
    · exact absurd hmem (hblank d.between_blank)
  | some t =>
    have htail : '<' ∉ "?xml".toList ++ (t ++ "?>".toList) ++ d.between := by
      simp only [List.mem_append, not_or]
      exact ⟨⟨by decide, (d.declaration_plain t hd).1, by decide⟩, hblank d.between_blank⟩
    have hcut : d.leading ++ '<' :: ("?xml".toList ++ (t ++ "?>".toList) ++ d.between) =
        l ++ '<' :: r := by
      rw [← heq, prologue, declarationText, hd]
      rfl
    obtain ⟨-, rfl⟩ := append_cons_inj_of_once (hblank d.leading_blank) htail hcut
    exact ⟨_, rfl⟩

/-- The root's name does not start in the prologue. -/
theorem rootOpen_not_prologue (t : List Char) (l r : List Char) (heq : d.prologue = l ++ r)
    (hr : r ≠ []) : ¬rootOpen <+: r ++ t := by
  intro hopen
  cases r with
  | nil => exact hr rfl
  | cons c r =>
    obtain ⟨rfl, hnext⟩ := List.cons_prefix_cons.mp hopen
    obtain ⟨m, rfl⟩ := d.question_of_mem_prologue heq
    exact absurd (List.cons_prefix_cons.mp hnext).1 (by decide)

/-- The parser finds the content of the root. -/
theorem rootWindow_text : rootWindow d.text = .ok (bodyText d.items, d.trailing) := by
  have hends : ((d.attributes ++ '>' :: (bodyText d.items ++
      (rootClose ++ d.trailing))).head?.any fun c => c = '>' || isXmlSpace c) = true := by
    rcases d.attributes_apart with hnil | ⟨c, hc, hspace⟩
    · rw [hnil]
      rfl
    · rw [List.head?_append, hc, Option.some_or, Option.any_some, hspace, Bool.or_true]
  have hroot := findRoot_skip (d.rootOpen_not_prologue (rootOpen ++ (d.attributes ++
    '>' :: (bodyText d.items ++ (rootClose ++ d.trailing)))))
  rw [findRoot_self hends] at hroot
  have hclose : cutFirst rootClose (bodyText d.items ++ (rootClose ++ d.trailing)) =
      some (bodyText d.items, d.trailing) := by
    rw [cutFirst_skip bracketed_rootClose (balanced_bodyText d.items_wellFormed)
      (rootClose_not_in_body d.items_wellFormed), cutFirst_self]
    simp
  have hbracket : cutFirst ['>'] (d.attributes ++ '>' :: (bodyText d.items ++
      (rootClose ++ d.trailing))) =
      some (d.attributes, bodyText d.items ++ (rootClose ++ d.trailing)) := by
    have hself := cutFirst_self ['>'] (bodyText d.items ++ (rootClose ++ d.trailing))
    rw [List.singleton_append] at hself
    rw [cutFirst_skip_of_not_mem d.attributes_plain, hself]
    simp
  rw [rootWindow, text, hroot]
  simp only [Option.map_some, List.append_nil, d.trim_prologue, d.prologueOnly_declarationText,
    Bool.not_true, Bool.false_eq_true, if_false, hbracket, hclose]

theorem parseTruncated_items {p : Page} (h : d.Shows p) :
    parseTruncated (bodyText d.items) = .ok p.isTruncated := by
  have hsearch := elementText_bodyText d.items_wellFormed .isTruncated (by decide)
  rw [parseTruncated, show "IsTruncated".toList = Tag.isTruncated.name from rfl, hsearch,
    h.truncated]
  cases p.isTruncated <;> rfl

theorem parseToken_items {p : Page} (hp : p.Valid) (h : d.Shows p) :
    parseToken (bodyText d.items) p.isTruncated = .ok p.nextContinuationToken := by
  have hsearch := elementText_bodyText d.items_wellFormed .nextContinuationToken
    (by decide)
  rw [parseToken, show "NextContinuationToken".toList = Tag.nextContinuationToken.name from rfl,
    hsearch]
  rcases h.token with ⟨r, hr, hescapes⟩ | ⟨hnone, hlast, hnil⟩
  · rw [hr]
    simp only [trim_eq_self (hescapes.trimmed hp.token), hescapes.xmlUnescape_eq]
  · rw [hnone, hlast, hnil]
    rfl

/-- The page is read out of the content of the root, whatever blanks follow. -/
theorem readPage_items {p : Page} (hp : p.Valid) (h : d.Shows p) {rest : List Char}
    (hrest : ∀ c ∈ rest, isSpace c = true) : readPage (bodyText d.items) rest = .ok p := by
  have hentries : contentsLoop ([] ++ bodyText d.items) = .ok p.entries :=
    contentsLoop_bodyText d.items_wellFormed hp.entries h.entries (balanced_of_not_mem (by simp))
      (by simp [openTag])
  rw [List.nil_append] at hentries
  simp only [readPage, hentries, d.parseTruncated_items h, bind, Except.bind,
    d.parseToken_items hp h, trim_blank hrest]
  rfl

end Document

/-- A window that is found in the front part of a text is the one of the text. -/
theorem rootWindow_append (h : rootWindow s = .ok (a, b)) (t : List Char) :
    rootWindow (s ++ t) = .ok (a, b ++ t) := by
  rw [rootWindow] at h
  cases hroot : findRoot s with
  | none =>
    rw [hroot] at h
    cases h
  | some root =>
    obtain ⟨pre, s₁⟩ := root
    simp only [hroot] at h
    split_ifs at h with hpre
    cases hbracket : cutFirst ['>'] s₁ with
    | none =>
      rw [hbracket] at h
      cases h
    | some q =>
      obtain ⟨attributes, s₂⟩ := q
      simp only [hbracket] at h
      cases hclose : cutFirst rootClose s₂ with
      | none =>
        rw [hclose] at h
        cases h
      | some window =>
        simp only [hclose] at h
        cases h
        rw [rootWindow, findRoot_append hroot t]
        simp only [hpre, cutFirst_append hbracket t, cutFirst_append hclose t]
        rfl

/-- **A page survives its document, and a part of the document never gives another page.** For a
    page of any entries with a key, a size of 64 bits and trimmed tags, and any document that shows
    it, `parse_list_objects_v2` returns the page; of a front part of the document it returns the
    page or throws. -/
theorem list_page_round_trip (p : Page) (hp : p.Valid) (d : Document) (h : d.Shows p) :
    parseListObjectsV2 d.text = .ok p ∧
      ∀ front, front <+: d.text →
        (∃ e, parseListObjectsV2 front = .error e) ∨ parseListObjectsV2 front = .ok p := by
  have hwhole : parseListObjectsV2 d.text = .ok p := by
    simp only [parseListObjectsV2, d.rootWindow_text]
    exact d.readPage_items hp h d.trailing_blank
  refine ⟨hwhole, ?_⟩
  rintro front ⟨t, ht⟩
  cases hwindow : rootWindow front with
  | error e =>
    left
    refine ⟨e, ?_⟩
    rw [parseListObjectsV2, hwindow]
    rfl
  | ok window =>
    right
    obtain ⟨body, rest⟩ := window
    have happend := rootWindow_append hwindow t
    rw [ht, d.rootWindow_text] at happend
    -- the window is that of the document, but for the end of the blanks
    obtain ⟨hbody, htrailing⟩ := Prod.mk.inj (Except.ok.inj happend)
    have hblank : ∀ c ∈ rest, isSpace c = true := by
      intro c hc
      exact d.trailing_blank c (htrailing ▸ List.mem_append_left t hc)
    simp only [parseListObjectsV2, hwindow, ← hbody]
    exact d.readPage_items hp h hblank

/-- An element of another name, without content. -/
theorem otherMarkup_storage : OtherMarkup "<Storage/>".toList := by
  refine ⟨balanced_tag "Storage/".toList (by decide) (by decide), ?_⟩
  rintro mark (⟨tag, rfl | rfl⟩ | rfl)
  · cases tag <;> decide +kernel
  · cases tag <;> decide +kernel
  · decide +kernel

/-- A listing of one object, `a&b` of 7 bytes, that another one follows. -/
def sampleDocument : Document where
  leading := []
  declaration := some " version='1.0'".toList
  between := ['\n']
  attributes := []
  items :=
    [.piece (.other "<Storage/>".toList), .piece (.field .isTruncated "true".toList),
      .contents
        [.field .key "a&amp;b".toList, .other "<Storage/>".toList, .field .size "7".toList],
      .piece (.field .nextContinuationToken "t&lt;".toList)]
  trailing := ['\n']
  leading_blank := by simp
  declaration_plain := by decide +kernel
  between_blank := by simp [isSpace]
  attributes_apart := .inl rfl
  attributes_plain := by decide
  items_wellFormed := by
    simp only [List.forall_mem_cons, Item.WellFormed, Piece.WellFormed]
    refine ⟨⟨otherMarkup_storage, by simp⟩, ⟨by decide, by simp⟩,
      ⟨⟨by decide, otherMarkup_storage, by decide, by simp⟩, ?_⟩, ⟨by decide, by simp⟩, by simp⟩
    intro tag t hmem
    simp only [List.mem_cons, List.not_mem_nil, or_false, Piece.field.injEq, reduceCtorEq,
      false_or] at hmem
    rcases hmem with ⟨rfl, -⟩ | ⟨rfl, -⟩ <;> decide
  trailing_blank := by simp [isSpace]

def samplePage : Page :=
  { entries := [{ key := "a&b".toList, size := 7, etag := [] }]
    isTruncated := true
    nextContinuationToken := "t<".toList }

theorem samplePage_valid : samplePage.Valid := by
  refine ⟨?_, ?_⟩
  · intro e he
    obtain rfl := List.mem_singleton.mp he
    exact ⟨by decide, by decide, fun a ha => (nomatch ha), fun a ha => (nomatch ha)⟩
  · refine ⟨?_, ?_⟩
    · intro a ha
      cases ha
      rfl
    · intro a ha
      cases ha
      rfl

theorem sampleDocument_shows : sampleDocument.Shows samplePage := by
  have hplain {c : Char} (hamp : c ≠ '&') (hlt : c ≠ '<') (hgt : c ≠ '>') : EscapesChar c [c] :=
    .inr ⟨rfl, hamp, hlt, hgt⟩
  have hkey : Escapes "a&b".toList "a&amp;b".toList := by
    refine ⟨[('a', ['a']), ('&', "&amp;".toList), ('b', ['b'])], ?_, rfl, rfl⟩
    simp only [List.forall_mem_cons, List.not_mem_nil, false_imp_iff, implies_true, and_true]
    exact ⟨hplain (by decide) (by decide) (by decide), .inl (by decide),
      hplain (by decide) (by decide) (by decide)⟩
  have htoken : Escapes "t<".toList "t&lt;".toList := by
    refine ⟨[('t', ['t']), ('<', "&lt;".toList)], ?_, rfl, rfl⟩
    simp only [List.forall_mem_cons, List.not_mem_nil, false_imp_iff, implies_true, and_true]
    exact ⟨hplain (by decide) (by decide) (by decide), .inl (by decide)⟩
  refine ⟨.cons ?_ .nil, rfl, .inl ⟨_, rfl, htoken⟩⟩
  have hitem := sampleDocument.items_wellFormed (.contents
    [.field .key "a&amp;b".toList, .other "<Storage/>".toList, .field .size "7".toList])
    (by simp [sampleDocument])
  exact ⟨hitem.1, hitem.2, ⟨_, rfl, hkey⟩, rfl, .inr ⟨rfl, rfl⟩⟩

theorem list_page_round_trip_sample :
    parseListObjectsV2 sampleDocument.text = .ok samplePage ∧
      ∀ front, front <+: sampleDocument.text →
        (∃ e, parseListObjectsV2 front = .error e) ∨
          parseListObjectsV2 front = .ok samplePage :=
  list_page_round_trip samplePage samplePage_valid sampleDocument sampleDocument_shows

end Sirius.Io.ListParser
