import Sirius.Common.Search
import Sirius.Common.Text

/-!
# The parser of a listing

Model of `parse_list_objects_v2` (src/io/rest/s3/list_parser.cpp:27-251), which reads a page of
an S3 `ListObjectsV2` response by searching for its tags. `std::string::find` is `cutFirst`, and a
position that was found is the text before and behind it. What is thrown is the text of the
exception.

* `xmlUnescape`, `elementText`, `parseSize`: the pieces.
* `parseListObjectsV2`: the parser.
-/

namespace Sirius.Io.ListParser

open Sirius.Common.Search
open Sirius.Common.Text

/-- `std::isspace`, in the C locale. -/
def isSpace (c : Char) : Bool :=
  c = ' ' || c = '\t' || c = '\n' || c = '\x0b' || c = '\x0c' || c = '\r'

/-- `is_xml_space` (line 138). -/
def isXmlSpace (c : Char) : Bool := c = ' ' || c = '\t' || c = '\r' || c = '\n'

/-! ## Text -/

/-- The five predefined entities, in the order of lines 37–61. -/
def entities : List (List Char × Char) :=
  [("&amp;".toList, '&'), ("&lt;".toList, '<'), ("&gt;".toList, '>'), ("&quot;".toList, '\x22'),
    ("&apos;".toList, '\x27')]

/-- `xml_unescape` (lines 31–67). -/
def xmlUnescape (s : List Char) : List Char :=
  match s with
  | [] => []
  | c :: rest =>
    match if c = '&' then entities.find? fun e => e.1.isPrefixOf (c :: rest) else none with
    | some e => e.2 :: xmlUnescape (rest.drop (e.1.length - 1))
    | none => c :: xmlUnescape rest
termination_by s.length
decreasing_by
  · simp only [List.length_drop, List.length_cons]
    omega
  · simp

def openTag (name : List Char) : List Char := '<' :: (name ++ ['>'])

def closeTag (name : List Char) : List Char := '<' :: '/' :: (name ++ ['>'])

/-- `element_text` (lines 84–96). -/
def elementText (xml name : List Char) : Option (List Char) :=
  match cutFirst (openTag name) xml with
  | none => none
  | some (_, s) =>
    match cutFirst (closeTag name) s with
    | none => none
    | some (text, _) => some text

/-- The largest `uint64_t`. -/
def uint64Max : ℕ := 2 ^ 64 - 1

/-- The loop of `parse_size` (lines 105–121). -/
def sizeLoop (text : List Char) : ℕ → List Char → Except String ℕ
  | value, [] => .ok value
  | value, c :: rest =>
    if !c.isDigit then
      .error ("parse_list_objects_v2: non-numeric <Size> '" ++ String.ofList text ++
        "' in <Contents>")
    else
      let digit := c.toNat - 48
      if value > (uint64Max - digit) / 10 then
        .error ("parse_list_objects_v2: <Size> '" ++ String.ofList text ++
          "' overflows uint64 in <Contents>")
      else sizeLoop text (value * 10 + digit) rest

/-- `parse_size` (lines 98–123). -/
def parseSize (raw : List Char) : Except String ℕ :=
  let text := trim isSpace raw
  if text.isEmpty then .error "parse_list_objects_v2: empty <Size> in <Contents>"
  else sizeLoop text 0 text

/-! ## The page -/

/-- An object of the listing. -/
structure Entry where
  key : List Char
  size : ℕ
  etag : List Char
  deriving DecidableEq, Repr

/-- `list_objects_v2_page`. -/
structure Page where
  entries : List Entry
  isTruncated : Bool
  nextContinuationToken : List Char
  deriving DecidableEq, Repr

/-- The body of the loop over the `<Contents>` blocks (lines 192–217). -/
def parseEntry (block : List Char) : Except String Entry :=
  match elementText block "Key".toList with
  | none =>
    .error "parse_list_objects_v2: malformed ListObjectsV2 page (<Contents> without <Key>)"
  | some key =>
    let objectKey := xmlUnescape key
    if objectKey.isEmpty then
      .error "parse_list_objects_v2: malformed ListObjectsV2 page (empty <Key> in <Contents>)"
    else
      match elementText block "Size".toList with
      | none =>
        .error ("parse_list_objects_v2: <Contents> without <Size> for key '" ++
          String.ofList objectKey ++ "'")
      | some size =>
        (parseSize size).map fun size =>
          { key := objectKey
            size := size
            etag := ((elementText block "ETag".toList).map fun etag =>
              xmlUnescape (trim isSpace etag)).getD [] }

/-- The loop over the `<Contents>` blocks (lines 182–218). -/
def contentsLoop (body : List Char) : Except String (List Entry) :=
  match _hopen : cutFirst (openTag "Contents".toList) body with
  | none => .ok []
  | some (_, s) =>
    match _hclose : cutFirst (closeTag "Contents".toList) s with
    | none =>
      .error "parse_list_objects_v2: truncated ListObjectsV2 page (unclosed <Contents>)"
    | some (block, rest) =>
      match parseEntry block with
      | .error e => .error e
      | .ok entry => (contentsLoop rest).map (entry :: ·)
termination_by body.length
decreasing_by
  rw [eq_of_cutFirst _hopen, eq_of_cutFirst _hclose]
  simp only [List.length_append, openTag, List.length_cons]
  omega

/-- Lines 222–234. -/
def parseTruncated (body : List Char) : Except String Bool :=
  match elementText body "IsTruncated".toList with
  | none => .error "parse_list_objects_v2: malformed ListObjectsV2 page (missing <IsTruncated>)"
  | some truncated =>
    let text := trim isSpace truncated
    if text = "true".toList then .ok true
    else if text = "false".toList then .ok false
    else
      .error ("parse_list_objects_v2: invalid <IsTruncated> value '" ++ String.ofList text ++ "'")

/-- Lines 236–244. -/
def parseToken (body : List Char) (isTruncated : Bool) : Except String (List Char) :=
  match elementText body "NextContinuationToken".toList with
  | some token => .ok (xmlUnescape (trim isSpace token))
  | none =>
    if isTruncated then
      .error ("parse_list_objects_v2: truncated ListObjectsV2 page without a continuation token " ++
        "(<NextContinuationToken> missing)")
    else .ok []

def rootOpen : List Char := "<ListBucketResult".toList

def rootClose : List Char := "</ListBucketResult>".toList

/-- The first place of the root's name that ends there (lines 139–147): what comes before it, and
    what comes behind the name. -/
def findRoot : List Char → Option (List Char × List Char)
  | [] => none
  | c :: s =>
    if rootOpen <+: c :: s ∧
        (((c :: s).drop rootOpen.length).head?.any fun c => c = '>' || isXmlSpace c) = true then
      some ([], (c :: s).drop rootOpen.length)
    else (findRoot s).map fun p => (c :: p.1, p.2)

/-- Only an optional XML declaration may precede the root (lines 153–164). -/
def prologueOnly (pre : List Char) : Bool :=
  pre.isEmpty ||
    (decide (pre.take 5 = "<?xml".toList) &&
      match cutFirst "?>".toList pre with
      | none => false
      | some (_, rest) => (trim isSpace rest).isEmpty)

/-- The content of the root element, and what comes behind its close (lines 129–179). -/
def rootWindow (xml : List Char) : Except String (List Char × List Char) :=
  match findRoot xml with
  | none =>
    .error "parse_list_objects_v2: not a ListObjectsV2 response (no <ListBucketResult>)"
  | some (pre, s) =>
    if !prologueOnly (trim isSpace pre) then
      .error "parse_list_objects_v2: unexpected content before <ListBucketResult>"
    else
      match cutFirst ['>'] s with
      | none =>
        .error ("parse_list_objects_v2: truncated ListObjectsV2 response (unterminated " ++
          "<ListBucketResult> open tag)")
      | some (_, s) =>
        match cutFirst rootClose s with
        | none =>
          .error ("parse_list_objects_v2: truncated ListObjectsV2 response (missing " ++
            "</ListBucketResult>)")
        | some window => .ok window

/-- The page in the window of the root (lines 181–250). -/
def readPage (body rest : List Char) : Except String Page := do
  let entries ← contentsLoop body
  let isTruncated ← parseTruncated body
  let token ← parseToken body isTruncated
  if !(trim isSpace rest).isEmpty then
    .error "parse_list_objects_v2: unexpected content after </ListBucketResult>"
  else pure { entries := entries, isTruncated := isTruncated, nextContinuationToken := token }

/-- `parse_list_objects_v2` (lines 127–251). -/
def parseListObjectsV2 (xml : List Char) : Except String Page := do
  let (body, rest) ← rootWindow xml
  readPage body rest

end Sirius.Io.ListParser
