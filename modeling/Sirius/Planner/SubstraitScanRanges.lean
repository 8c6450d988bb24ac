import Sirius.Common.Checked
import Sirius.Common.OrderedMap
import Sirius.Io.RedactedUri

/-!
# Byte ranges of a Substrait plan

Model of `extract_scan_byte_ranges` and `inspect_scan_plan_inputs`
(src/planner/substrait_scan_ranges.cpp:42-272): the byte ranges that the reads of a plan carry, by
the file that they are ranges of. A protobuf message is what the walk by reflection sees of it: the
read, when it is a `ReadRel`, and the messages in its set fields. Parsing is a parameter.

* `canonicalScanPath`, `visitReads`, `inspect`: the functions.
* `Message.reads`: the file items of every read of a plan, in the order of the walk.
* `extractScanByteRanges_spec`: what is returned for each path.
-/

namespace Sirius.Planner.SubstraitScanRanges

open Sirius.Common
open Sirius.Io.RedactedUri

/-! ## The functions -/

abbrev Path := List Char

/-- `canonical_scan_path` (lines 42-54). -/
def canonicalScanPath (path : Path) : Path :=
  if "file:".toList.isPrefixOf path then
    let rest := path.drop 5
    if "//".toList.isPrefixOf rest then
      match (rest.drop 2).findIdx? (· = '/') with
      | none => path
      | some slash => rest.drop (2 + slash)
    else rest
  else path

/-- `has_remote_scheme` (lines 95-98). -/
def hasRemoteScheme (canonicalPath : Path) : Bool := decide ("://".toList <:+: canonicalPath)

/-- The path of a file item: the cases of `path_type` that are read, and the others. -/
inductive PathType where
  | uriFile (uri : Path)
  | uriPath (uri : Path)
  | other
  deriving DecidableEq, Repr

/-- A `FileOrFiles` item of a read. -/
structure Item where
  path : PathType
  start : ℕ
  length : ℕ
  deriving DecidableEq, Repr

/-- A `ReadRel`: its local files and the metadata URI of its Iceberg table, where it has them. -/
structure ReadRel where
  localFiles : Option (List Item)
  icebergMetadataUri : Option Path
  deriving DecidableEq, Repr

/-- A message: the read, when it is one, and the messages of its fields in the order in which
    `ListFields` gives them. -/
inductive Message where
  | node (read : Option ReadRel) (fields : List Message)

/-- `scan_byte_range`. -/
abbrev ByteRange := ℕ × ℕ

/-- `read_items`. -/
structure ReadItems where
  whole : Bool := false
  ranges : List ByteRange := []
  deriving DecidableEq, Repr

/-- The text of an `invalid_input_exception`. -/
abbrev Error := List Char

def Item.ranged (item : Item) : Bool := item.start ≠ 0 || item.length ≠ 0

def number (n : ℕ) : List Char := (toString n).toList

/-- One item of a read (lines 116-137). -/
def addItem (files : List (Path × ReadItems)) (item : Item) :
    Except Error (List (Path × ReadItems)) :=
  match item.path with
  | .uriFile uri =>
    if item.ranged then
      if item.length > 2 ^ 64 - 1 - item.start then
        .error ("byte range (".toList ++ number item.start ++ ", ".toList ++ number item.length
          ++ ") of '".toList ++ redactedUri uri ++ "' overflows a 64-bit offset".toList)
      else
        pure (upsert files (canonicalScanPath uri) {} fun entry =>
          { entry with ranges := entry.ranges ++ [(item.start, item.length)] })
    else
      pure (upsert files (canonicalScanPath uri) {} fun entry => { entry with whole := true })
  | _ =>
    if item.ranged then
      .error ("a byte-ranged LocalFiles item uses a path type other than uri_file; its range "
        ++ "cannot be attributed to a file").toList
    else pure files

/-- The items of one read, by canonical path. -/
def readFiles (items : List Item) : Except Error (List (Path × ReadItems)) :=
  items.foldlM addItem []

mutual

/-- `visit_reads` (lines 110-153). -/
def visitReads (message : Message) (reads : List (List (Path × ReadItems))) :
    Except Error (List (List (Path × ReadItems))) :=
  match message with
  | .node read fields => do
    let reads ← match read with
      | some ⟨some items, _⟩ => do
        let files ← readFiles items
        pure (reads ++ [files])
      | _ => pure reads
    visitFields fields reads

def visitFields (fields : List Message) (reads : List (List (Path × ReadItems))) :
    Except Error (List (List (Path × ReadItems))) :=
  match fields with
  | [] => pure reads
  | field :: fields => do
    let reads ← visitReads field reads
    visitFields fields reads

end

/-- An element that was not met before. -/
def addNew (remote : List Path) (path : Path) : List Path :=
  if path ∈ remote then remote else remote ++ [path]

/-- The remote inputs of one message (lines 161-186). -/
def remoteItems (read : ReadRel) (remote : List Path) : List Path :=
  let remote := match read.icebergMetadataUri with
    | some uri => if uri.isEmpty then remote else addNew remote uri
    | none => remote
  match read.localFiles with
  | none => remote
  | some items => items.foldl (fun remote item =>
      match item.path with
      | .uriFile raw | .uriPath raw =>
        let path := canonicalScanPath raw
        if hasRemoteScheme path then addNew remote path else remote
      | .other => remote) remote

mutual

/-- `visit_remote_items` (lines 157-199). -/
def visitRemoteItems (message : Message) (remote : List Path) : List Path :=
  match message with
  | .node read fields =>
    visitRemoteFields fields (match read with
      | some read => remoteItems read remote
      | none => remote)

def visitRemoteFields (fields : List Message) (remote : List Path) : List Path :=
  match fields with
  | [] => remote
  | field :: fields => visitRemoteFields fields (visitRemoteItems field remote)

end

/-- `scan_plan_inputs`. -/
structure ScanPlanInputs where
  byteRanges : List (Path × List ByteRange) := []
  remotePaths : List Path := []
  deriving DecidableEq, Repr

/-- How many reads name a path (lines 229-234). -/
def readsPerPath (reads : List (List (Path × ReadItems))) : List (Path × ℕ) :=
  reads.foldl (fun counts files =>
    files.foldl (fun counts entry => upsert counts entry.1 0 (· + 1)) counts) []

/-- The ranges of one entry of a read are attributed (lines 236-256). -/
def attributeRanges (refuseRemoteRanges : Bool) (counts : List (Path × ℕ))
    (byteRanges : List (Path × List ByteRange)) (entry : Path × ReadItems) :
    Except Error (List (Path × List ByteRange)) :=
  let (path, items) := entry
  let reads := (counts.lookup path).getD 0
  if items.ranges.isEmpty then pure byteRanges
  else if hasRemoteScheme path then
    if !refuseRemoteRanges then pure byteRanges
    else .error ("byte-range splits are only supported on local parquet files, not '".toList
      ++ redactedUri path ++ "'".toList)
  else if items.whole then
    .error ("a read names '".toList ++ redactedUri path
      ++ "' both whole and by byte range; one scan cannot read a file both ways".toList)
  else if reads > 1 then
    .error ("'".toList ++ redactedUri path ++ "' is read by byte range in a plan that reads it ".toList
      ++ number reads ++ " times; the ranges cannot be attributed to one read".toList)
  else pure (upsert byteRanges path [] fun _ => items.ranges)

variable {β : Type} (parseFromString : β → Option Message)

/-- `inspect` (lines 205-257). -/
def inspect (planBytes : β) (refuseRemoteRanges : Bool) : Except Error ScanPlanInputs :=
  match parseFromString planBytes with
  | none => .error "failed to parse the Substrait plan while extracting scan byte ranges".toList
  | some plan =>
    let remotePaths := if refuseRemoteRanges then [] else visitRemoteItems plan []
    if !remotePaths.isEmpty then pure { remotePaths := remotePaths }
    else do
      let reads ← visitReads plan []
      let counts := readsPerPath reads
      let byteRanges ← reads.foldlM (fun byteRanges files =>
        files.foldlM (attributeRanges refuseRemoteRanges counts) byteRanges) []
      pure { byteRanges := byteRanges }

/-- `extract_scan_byte_ranges` (lines 267-271). -/
def extractScanByteRanges (planBytes : β) : Except Error (List (Path × List ByteRange)) := do
  let inputs ← inspect parseFromString planBytes true
  pure inputs.byteRanges

/-! ## The reads of a plan -/

mutual

/-- The local file items of every read of a message, in the order of the walk. -/
def Message.reads (message : Message) : List (List Item) :=
  match message with
  | .node read fields => (read.bind ReadRel.localFiles).toList ++ fieldReads fields

def fieldReads (fields : List Message) : List (List Item) :=
  match fields with
  | [] => []
  | field :: fields => field.reads ++ fieldReads fields

end

def Message.read : Message → Option ReadRel
  | .node read _ => read

/-- A message stands anywhere in another one. -/
inductive Within (message : Message) : Message → Prop where
  | self : Within message message
  | field {read : Option ReadRel} {fields : List Message} {field : Message} (hmem : field ∈ fields)
      (h : Within message field) : Within message (.node read fields)

variable {items : List Item}

theorem mem_fieldReads {fields : List Message} :
    items ∈ fieldReads fields ↔ ∃ field ∈ fields, items ∈ field.reads := by
  induction fields with
  | nil => simp [fieldReads]
  | cons field fields ih => simp [fieldReads, ih]

mutual

theorem Message.within_of_mem_reads {items : List Item} (plan : Message) (h : items ∈ plan.reads) :
    ∃ message read, Within message plan ∧ message.read = some read ∧
      read.localFiles = some items := by
  match plan with
  | .node read fields =>
    rw [Message.reads, List.mem_append, Option.mem_toList, Option.bind_eq_some_iff] at h
    rcases h with ⟨rel, hread, hfiles⟩ | h
    · exact ⟨_, rel, .self, hread, hfiles⟩
    · obtain ⟨field, hmem, message, rel, hwithin, hrel⟩ := within_of_mem_fieldReads fields h
      exact ⟨message, rel, .field hmem hwithin, hrel⟩

theorem within_of_mem_fieldReads {items : List Item} (fields : List Message)
    (h : items ∈ fieldReads fields) :
    ∃ field ∈ fields, ∃ message read, Within message field ∧ message.read = some read ∧
      read.localFiles = some items := by
  match fields with
  | [] => simp [fieldReads] at h
  | field :: fields =>
    rw [fieldReads, List.mem_append] at h
    rcases h with h | h
    · exact ⟨field, List.mem_cons_self, field.within_of_mem_reads h⟩
    · obtain ⟨field', hmem, hwithin⟩ := within_of_mem_fieldReads fields h
      exact ⟨field', List.mem_cons_of_mem field hmem, hwithin⟩

end

/-- The walk meets every read, wherever it stands. -/
theorem mem_reads_iff {plan : Message} :
    items ∈ plan.reads ↔ ∃ message read, Within message plan ∧ message.read = some read ∧
      read.localFiles = some items := by
  refine ⟨plan.within_of_mem_reads, ?_⟩
  rintro ⟨message, read, hwithin, hread, hfiles⟩
  induction hwithin with
  | self =>
    obtain ⟨_, fields⟩ := message
    obtain rfl : _ = some read := hread
    simp [Message.reads, hfiles]
  | field hmem _ ih =>
    rw [Message.reads, List.mem_append]
    exact .inr (mem_fieldReads.mpr ⟨_, hmem, ih⟩)

mutual

theorem visitReads_eq (message : Message) (reads : List (List (Path × ReadItems))) :
    visitReads message reads = (reads ++ ·) <$> message.reads.mapM readFiles := by
  match message with
  | .node read fields =>
    rw [Message.reads, List.mapM_append]
    rcases read with _ | ⟨_ | items, uri⟩
    · unfold visitReads
      simp [visitFields_eq fields]
    · unfold visitReads
      simp [visitFields_eq fields]
    · unfold visitReads
      cases h : readFiles items with
      | error e => simp [h, bind, Except.bind]
      | ok files =>
        cases hrest : (fieldReads fields).mapM readFiles with
        | error e => simp [h, visitFields_eq fields, hrest, bind, Except.bind, pure, Except.pure]
        | ok rest => simp [h, visitFields_eq fields, hrest, bind, Except.bind, pure, Except.pure]

theorem visitFields_eq (fields : List Message) (reads : List (List (Path × ReadItems))) :
    visitFields fields reads = (reads ++ ·) <$> (fieldReads fields).mapM readFiles := by
  match fields with
  | [] => simp [visitFields, fieldReads]
  | field :: fields =>
    rw [visitFields, visitReads_eq field, fieldReads, List.mapM_append]
    cases h : field.reads.mapM readFiles with
    | error e => simp [bind, Except.bind]
    | ok files =>
      cases hrest : (fieldReads fields).mapM readFiles with
      | error e => simp [visitFields_eq fields, hrest, bind, Except.bind]
      | ok rest => simp [visitFields_eq fields, hrest, bind, Except.bind, pure, Except.pure]

end

/-! ## The items of a path -/

/-- The canonical path of an item that names a file. -/
def Item.canonical (item : Item) : Option Path :=
  match item.path with
  | .uriFile uri => some (canonicalScanPath uri)
  | _ => none

/-- The items that name a path. -/
def named (path : Path) (items : List Item) : List Item :=
  items.filter fun item => item.canonical = some path

/-- The byte ranges of a path, in the order of the items. -/
def rangesOf (path : Path) (items : List Item) : List ByteRange :=
  ((named path items).filter Item.ranged).map fun item => (item.start, item.length)

/-- What the items of one read say about the files that they name. -/
structure FilesOf (items : List Item) (files : List (Path × ReadItems)) : Prop where
  ascending : Ascending files
  attributable : ∀ item ∈ items, item.ranged → item.canonical.isSome
  lookup : ∀ path, files.lookup path = if named path items = [] then none
    else some ⟨(named path items).any fun item => !item.ranged, rangesOf path items⟩

theorem filesOf_nil : FilesOf [] [] where
  ascending := ascending_nil
  attributable := fun _ hmem => by cases hmem
  lookup := fun _ => by simp [named]

/-- What one item adds to the entry of its path. -/
def note (item : Item) (entry : ReadItems) : ReadItems :=
  if item.ranged then { entry with ranges := entry.ranges ++ [(item.start, item.length)] }
  else { entry with whole := true }

theorem addItem_ok {files files' : List (Path × ReadItems)} {item : Item}
    (h : addItem files item = .ok files') :
    (item.canonical = none ∧ ¬item.ranged ∧ files' = files) ∨
      ∃ path, item.canonical = some path ∧ files' = upsert files path {} (note item) := by
  unfold addItem at h
  unfold Item.canonical
  cases hpath : item.path with
  | uriFile uri =>
    rw [hpath] at h
    refine .inr ⟨canonicalScanPath uri, rfl, ?_⟩
    unfold note
    dsimp only at h
    by_cases hranged : item.ranged
    · rw [if_pos hranged] at h
      obtain ⟨-, h⟩ := ite_error_eq_ok.mp h
      simp [← pure_eq_ok.mp h, hranged]
    · rw [if_neg hranged] at h
      simp [← pure_eq_ok.mp h, hranged]
  | uriPath _ | other =>
    rw [hpath] at h
    obtain ⟨hranged, h⟩ := ite_error_eq_ok.mp h
    exact .inl ⟨rfl, hranged, (pure_eq_ok.mp h).symm⟩

theorem named_append (path : Path) (items items' : List Item) :
    named path (items ++ items') = named path items ++ named path items' := List.filter_append ..

theorem rangesOf_append (path : Path) (items items' : List Item) :
    rangesOf path (items ++ items') = rangesOf path items ++ rangesOf path items' := by
  simp [rangesOf, named_append]

theorem named_singleton (path : Path) (item : Item) :
    named path [item] = if item.canonical = some path then [item] else [] := by
  unfold named
  rw [List.filter_singleton]
  by_cases h : item.canonical = some path <;> simp [h]

/-- One more item. -/
theorem FilesOf.add {files files' : List (Path × ReadItems)} {item : Item}
    (hf : FilesOf items files) (h : addItem files item = .ok files') :
    FilesOf (items ++ [item]) files' := by
  rcases addItem_ok h with ⟨hnone, hranged, rfl⟩ | ⟨path, hsome, rfl⟩
  · refine ⟨hf.ascending, fun x hx hx' => ?_, fun path => ?_⟩
    · rcases List.mem_append.mp hx with hx | hx
      · exact hf.attributable x hx hx'
      · obtain rfl := List.mem_singleton.mp hx
        exact absurd hx' hranged
    · have hrest : named path [item] = [] := by simp [named_singleton, hnone]
      rw [rangesOf, named_append, hrest, List.append_nil]
      exact hf.lookup path
  · refine ⟨upsert_sorted hf.ascending _ _ _, fun x hx hx' => ?_, fun path' => ?_⟩
    · rcases List.mem_append.mp hx with hx | hx
      · exact hf.attributable x hx hx'
      · obtain rfl := List.mem_singleton.mp hx
        rw [hsome]
        rfl
    · rw [lookup_upsert hf.ascending, rangesOf_append, named_append, named_singleton, hsome]
      by_cases heq : path' = path
      · subst heq
        rw [if_pos rfl, if_pos rfl, if_neg (by simp), hf.lookup]
        have hlast : rangesOf path' [item] = if item.ranged then [(item.start, item.length)] else [] := by
          rw [rangesOf, named_singleton, hsome, if_pos rfl, List.filter_singleton]
          by_cases hranged : item.ranged <;> simp [hranged]
        rw [hlast]
        -- the entry of the path so far, or a new one
        by_cases hnil : named path' items = []
        · have hranges : rangesOf path' items = [] := by simp [rangesOf, hnil]
          by_cases hranged : item.ranged <;> simp [note, hranged, hnil, hranges]
        · by_cases hranged : item.ranged <;> simp [note, hranged, hnil]
      · have hne : ¬some path = some path' := fun h => heq (Option.some.inj h).symm
        have hlast : rangesOf path' [item] = [] := by simp [rangesOf, named_singleton, hsome, hne]
        rw [if_neg heq, if_neg hne, hlast, List.append_nil, List.append_nil]
        exact hf.lookup path'

variable {files done : List (Path × ReadItems)}

/-- **The items of a read.** -/
theorem readFiles_ok (h : readFiles items = .ok files) : FilesOf items files := by
  have hloop : ∀ (items done : List Item) (acc : List (Path × ReadItems)), FilesOf done acc →
      items.foldlM addItem acc = .ok files → FilesOf (done ++ items) files := by
    intro items
    induction items with
    | nil =>
      intro done acc hacc h
      rw [← pure_eq_ok.mp h, List.append_nil]
      exact hacc
    | cons item items ih =>
      intro done acc hacc h
      rw [List.foldlM_cons] at h
      obtain ⟨acc', hitem, h⟩ := bind_eq_ok.mp h
      rw [List.append_cons]
      exact ih _ _ (hacc.add hitem) h
  exact hloop items [] [] filesOf_nil h

/-! ## Counting the reads of a path -/

def keys {γ : Type} (files : List (Path × γ)) : List Path := files.map Prod.fst

variable {counts : List (Path × ℕ)}

theorem countEntries (files : List (Path × ReadItems)) (h : Ascending counts) :
    Ascending (files.foldl (fun counts entry => upsert counts entry.1 0 (· + 1)) counts) ∧
      ∀ path, ((files.foldl (fun counts entry => upsert counts entry.1 0 (· + 1)) counts).lookup
        path).getD 0 = (counts.lookup path).getD 0 + (keys files).count path := by
  induction files generalizing counts with
  | nil => exact ⟨h, fun _ => rfl⟩
  | cons entry files ih =>
    obtain ⟨hasc, hcount⟩ := ih (upsert_sorted h entry.1 0 (· + 1))
    refine ⟨hasc, fun path => ?_⟩
    rw [List.foldl_cons, hcount, lookup_upsert h]
    unfold keys
    rw [List.map_cons, List.count_cons]
    by_cases hpath : path = entry.1
    · rw [hpath]
      simp
      omega
    · rw [if_neg hpath, beq_false_of_ne (Ne.symm hpath)]
      simp

variable {out out' : List (Path × List ByteRange)} {path : Path}

/-- `reads_per_path`. -/
theorem readsPerPath_eq (reads : List (List (Path × ReadItems))) (path : Path) :
    ((readsPerPath reads).lookup path).getD 0 = (reads.flatMap keys).count path := by
  have hloop : ∀ (reads : List (List (Path × ReadItems))) (counts : List (Path × ℕ)),
      Ascending counts →
      ((reads.foldl (fun counts files =>
        files.foldl (fun counts entry => upsert counts entry.1 0 (· + 1)) counts) counts).lookup
          path).getD 0 = (counts.lookup path).getD 0 + (reads.flatMap keys).count path := by
    intro reads
    induction reads with
    | nil => exact fun _ _ => rfl
    | cons files reads ih =>
      intro counts h
      obtain ⟨hasc, hcount⟩ := countEntries files h
      rw [List.foldl_cons, ih _ hasc, hcount, List.flatMap_cons, List.count_append]
      omega
  rw [readsPerPath, hloop reads [] ascending_nil]
  exact Nat.zero_add _

/-! ## Attributing the ranges -/

theorem attributeRanges_ok {items : ReadItems}
    (h : attributeRanges true counts out (path, items) = .ok out') :
    (items.ranges = [] ∧ out' = out) ∨
      (items.ranges ≠ [] ∧ items.whole = false ∧ (counts.lookup path).getD 0 ≤ 1 ∧
        out' = upsert out path [] fun _ => items.ranges) := by
  unfold attributeRanges at h
  dsimp only at h
  by_cases hnil : items.ranges.isEmpty
  · rw [if_pos hnil] at h
    exact .inl ⟨List.isEmpty_iff.mp hnil, (pure_eq_ok.mp h).symm⟩
  · rw [if_neg hnil] at h
    by_cases hremote : hasRemoteScheme path
    · rw [if_pos hremote] at h
      cases h
    · rw [if_neg hremote] at h
      obtain ⟨hwhole, h⟩ := ite_error_eq_ok.mp h
      obtain ⟨hcount, h⟩ := ite_error_eq_ok.mp h
      refine .inr ⟨fun h => hnil (List.isEmpty_iff.mpr h), by simpa using hwhole, by omega, ?_⟩
      exact (pure_eq_ok.mp h).symm

/-- The ranges attributed so far, for the entries that were passed. -/
structure Attributed (counts : List (Path × ℕ)) (done : List (Path × ReadItems))
    (out : List (Path × List ByteRange)) : Prop where
  ascending : Ascending out
  ranged : ∀ entry ∈ done, entry.2.ranges ≠ [] →
    entry.2.whole = false ∧ (counts.lookup entry.1).getD 0 ≤ 1 ∧ (out.lookup entry.1).isSome
  source : ∀ path ranges, out.lookup path = some ranges →
    ranges ≠ [] ∧ ∃ entry ∈ done, entry.1 = path ∧ entry.2.ranges = ranges

theorem Attributed.add {entry : Path × ReadItems} (ha : Attributed counts done out)
    (h : attributeRanges true counts out entry = .ok out') :
    Attributed counts (done ++ [entry]) out' := by
  rcases attributeRanges_ok h with ⟨hnil, rfl⟩ | ⟨hranges, hwhole, hcount, rfl⟩
  · refine ⟨ha.ascending, fun x hx hx' => ?_, fun path ranges hlookup => ?_⟩
    · rcases List.mem_append.mp hx with hx | hx
      · exact ha.ranged x hx hx'
      · rw [List.mem_singleton.mp hx] at hx'
        exact absurd hnil hx'
    · obtain ⟨hne, x, hx, hsource⟩ := ha.source path ranges hlookup
      exact ⟨hne, x, List.mem_append_left _ hx, hsource⟩
  · refine ⟨upsert_sorted ha.ascending _ _ _, fun x hx hx' => ?_, fun path ranges hlookup => ?_⟩
    · rw [lookup_upsert ha.ascending]
      rcases List.mem_append.mp hx with hx | hx
      · obtain ⟨hwhole', hcount', hsome⟩ := ha.ranged x hx hx'
        refine ⟨hwhole', hcount', ?_⟩
        split_ifs
        · rfl
        · exact hsome
      · rw [List.mem_singleton.mp hx]
        exact ⟨hwhole, hcount, by simp⟩
    · rw [lookup_upsert ha.ascending] at hlookup
      split_ifs at hlookup with hpath
      · obtain rfl := Option.some.inj hlookup
        exact ⟨hranges, entry, by simp, hpath.symm, rfl⟩
      · obtain ⟨hne, x, hx, hsource⟩ := ha.source path ranges hlookup
        exact ⟨hne, x, List.mem_append_left _ hx, hsource⟩

/-- One read, entry by entry. -/
theorem Attributed.addRead (files : List (Path × ReadItems)) (ha : Attributed counts done out)
    (h : files.foldlM (attributeRanges true counts) out = .ok out') :
    Attributed counts (done ++ files) out' := by
  induction files generalizing done out with
  | nil =>
    rw [← pure_eq_ok.mp h, List.append_nil]
    exact ha
  | cons entry files ih =>
    rw [List.foldlM_cons] at h
    obtain ⟨_, hentry, h⟩ := bind_eq_ok.mp h
    rw [List.append_cons]
    exact ih (ha.add hentry) h

/-- All reads. -/
theorem Attributed.addReads (reads : List (List (Path × ReadItems)))
    (ha : Attributed counts done out)
    (h : reads.foldlM (fun out files => files.foldlM (attributeRanges true counts) out) out
      = .ok out') : Attributed counts (done ++ reads.flatten) out' := by
  induction reads generalizing done out with
  | nil =>
    rw [← pure_eq_ok.mp h, List.flatten_nil, List.append_nil]
    exact ha
  | cons files reads ih =>
    rw [List.foldlM_cons] at h
    obtain ⟨_, hfiles, h⟩ := bind_eq_ok.mp h
    rw [List.flatten_cons, ← List.append_assoc]
    exact ih (ha.addRead files hfiles) h

/-! ## What is returned -/

theorem exists_right_of_forall₂ {γ δ : Type} {R : γ → δ → Prop} {xs : List γ} {ys : List δ} {x : γ}
    (h : List.Forall₂ R xs ys) (hx : x ∈ xs) : ∃ y ∈ ys, R x y := by
  induction h with
  | nil => cases hx
  | cons hr _ ih =>
    rcases List.mem_cons.mp hx with rfl | hx
    · exact ⟨_, List.mem_cons_self, hr⟩
    · obtain ⟨y, hy, hxy⟩ := ih hx
      exact ⟨y, List.mem_cons_of_mem _ hy, hxy⟩

theorem exists_left_of_forall₂ {γ δ : Type} {R : γ → δ → Prop} {xs : List γ} {ys : List δ} {y : δ}
    (h : List.Forall₂ R xs ys) (hy : y ∈ ys) : ∃ x ∈ xs, R x y := by
  obtain ⟨x, hx, hxy⟩ := exists_right_of_forall₂ h.flip hy
  exact ⟨x, hx, hxy⟩

/-- A read names a path. -/
def names (path : Path) (items : List Item) : Bool := !(named path items).isEmpty

theorem FilesOf.mem_keys
    (hf : FilesOf items files) (path : Path) : path ∈ keys files ↔ names path items := by
  unfold keys names
  rw [mem_keys_iff, hf.lookup]
  by_cases hnil : named path items = [] <;> simp [hnil]

/-- The entry of a path that a read names. -/
theorem FilesOf.mem_iff (hf : FilesOf items files) {entry : Path × ReadItems} :
    entry ∈ files ↔ names entry.1 items ∧
      entry.2 = ⟨(named entry.1 items).any fun item => !item.ranged, rangesOf entry.1 items⟩ := by
  have hlookup := hf.lookup entry.1
  unfold names
  constructor
  · intro hmem
    rw [lookup_of_nodup hf.ascending.nodup hmem] at hlookup
    by_cases hnil : named entry.1 items = []
    · simp [hnil] at hlookup
    · rw [if_neg hnil] at hlookup
      exact ⟨by simp [hnil], Option.some.inj hlookup⟩
  · rintro ⟨hnamed, hentry⟩
    rw [if_neg (by simpa using hnamed), ← hentry] at hlookup
    exact mem_of_lookup hlookup

variable {reads : List (List Item)}

/-- The entries of a path are as many as the reads that name it. -/
theorem count_keys {files : List (List (Path × ReadItems))} (h : List.Forall₂ FilesOf reads files)
    (path : Path) : (files.flatMap keys).count path = reads.countP (names path) := by
  induction h with
  | nil => rfl
  | @cons items entries reads files hf _ ih =>
    have hnodup : (keys entries).Nodup := hf.ascending.nodup
    have hmem := hf.mem_keys path
    rw [List.flatMap_cons, List.count_append, ih, List.countP_cons, hnodup.count, Nat.add_comm]
    by_cases hnames : names path items
    · rw [if_pos (hmem.mpr hnames), if_pos hnames]
    · rw [if_neg fun h => hnames (hmem.mp h), if_neg hnames]

/-- When one read names a path, the items of the path are those of that read. -/
theorem named_flatten (hmem : items ∈ reads) (hnames : names path items)
    (hcount : reads.countP (names path) ≤ 1) :
    named path reads.flatten = named path items ∧ reads.countP (names path) = 1 := by
  have hnone : ∀ reads : List (List Item), reads.countP (names path) = 0 →
      named path reads.flatten = [] := by
    intro reads hzero
    unfold named
    rw [List.filter_flatten, List.flatten_eq_nil_iff]
    intro l hl
    obtain ⟨items, hitems, rfl⟩ := List.mem_map.mp hl
    have hnot := List.countP_eq_zero.mp hzero items hitems
    simpa [names, named] using hnot
  obtain ⟨before, after, rfl⟩ := List.append_of_mem hmem
  rw [List.countP_append, List.countP_cons, if_pos hnames] at hcount ⊢
  refine ⟨?_, by omega⟩
  rw [List.flatten_append, List.flatten_cons, named_append, named_append,
    hnone before (by omega), hnone after (by omega), List.nil_append, List.append_nil]

/-- The byte ranges that were extracted from a plan. -/
structure Extracted (plan : Message) (out : List (Path × List ByteRange)) : Prop where
  /-- One list for each path. -/
  ascending : Ascending out
  /-- A ranged item names a file. -/
  attributable : ∀ message read items, Within message plan → message.read = some read →
    read.localFiles = some items → ∀ item ∈ items, item.ranged →
      ∃ path, item.canonical = some path ∧ (out.lookup path).isSome
  /-- The list of a path has the ranges of all items that name it, in order. -/
  ranges : ∀ path, out.lookup path = if rangesOf path plan.reads.flatten = [] then none
    else some (rangesOf path plan.reads.flatten)
  /-- A path with ranges is named by one read, and never whole. -/
  sole : ∀ path, (out.lookup path).isSome → plan.reads.countP (names path) = 1 ∧
    ∀ item ∈ plan.reads.flatten, item.canonical = some path → item.ranged

theorem rangesOf_congr {items items' : List Item}
    (h : named path items = named path items') : rangesOf path items = rangesOf path items' := by
  unfold rangesOf
  rw [h]

theorem names_of_rangesOf (h : rangesOf path items ≠ []) : names path items := by
  unfold names
  by_contra hnil
  refine h ?_
  simp only [Bool.not_eq_true, Bool.not_eq_false', List.isEmpty_iff] at hnil
  simp [rangesOf, hnil]

/-- A range of a plan is a range of a read. -/
theorem exists_read_of_rangesOf
    (h : rangesOf path reads.flatten ≠ []) : ∃ items ∈ reads, rangesOf path items ≠ [] := by
  by_contra hnone
  push Not at hnone
  refine h ?_
  induction reads with
  | nil => rfl
  | cons items reads ih =>
    rw [List.flatten_cons, rangesOf_append, hnone items List.mem_cons_self, List.nil_append]
    by_contra hrest
    exact hrest (ih hrest fun x hx => hnone x (List.mem_cons_of_mem items hx))

theorem canonical_mem_ranges {item : Item} (hmem : item ∈ items)
    (hpath : item.canonical = some path) (hranged : item.ranged) : rangesOf path items ≠ [] := by
  refine List.ne_nil_of_mem (a := (item.start, item.length)) ?_
  refine List.mem_map.mpr ⟨item, ?_, rfl⟩
  exact List.mem_filter.mpr ⟨List.mem_filter.mpr ⟨hmem, by simpa using hpath⟩, hranged⟩

/-- The entries of the reads, once their ranges are attributed. -/
theorem extracted_of_attributed {plan : Message} {files : List (List (Path × ReadItems))}
    (hfiles : List.Forall₂ FilesOf plan.reads files)
    (ha : Attributed (readsPerPath files) files.flatten out) : Extracted plan out := by
  -- a read with ranges of a path is the only one that names it, and its ranges are returned
  have hread : ∀ path, ∀ items ∈ plan.reads, rangesOf path items ≠ [] →
      named path plan.reads.flatten = named path items ∧
      plan.reads.countP (names path) = 1 ∧ (∀ item ∈ named path items, item.ranged) ∧
      out.lookup path = some (rangesOf path items) := by
    intro path items hitems hranges
    obtain ⟨entries, hentries, hf⟩ := exists_right_of_forall₂ hfiles hitems
    have hnames := names_of_rangesOf hranges
    have hentry : (path, ReadItems.mk ((named path items).any fun item => !item.ranged)
        (rangesOf path items)) ∈ entries := hf.mem_iff.mpr ⟨hnames, rfl⟩
    obtain ⟨hwhole, hcount, hsome⟩ :=
      ha.ranged _ (List.mem_flatten.mpr ⟨entries, hentries, hentry⟩) hranges
    rw [readsPerPath_eq, count_keys hfiles] at hcount
    obtain ⟨hnamed, hone⟩ := named_flatten hitems hnames hcount
    refine ⟨hnamed, hone, fun item hitem => ?_, ?_⟩
    · simpa using List.any_eq_false.mp hwhole item hitem
    · obtain ⟨ranges, hlookup⟩ := Option.isSome_iff_exists.mp hsome
      obtain ⟨-, entry', hentry', hpath, rfl⟩ := ha.source path ranges hlookup
      obtain ⟨entries', hentries', hmem'⟩ := List.mem_flatten.mp hentry'
      obtain ⟨items', hitems', hf'⟩ := exists_left_of_forall₂ hfiles hentries'
      obtain ⟨hnames', hvalue⟩ := hf'.mem_iff.mp hmem'
      rw [hpath] at hnames' hvalue
      have hsame := (named_flatten hitems' hnames' hcount).1
      rw [hlookup, hvalue, rangesOf_congr (hsame.symm.trans hnamed)]
  have hlookup : ∀ path, out.lookup path = if rangesOf path plan.reads.flatten = [] then none
      else some (rangesOf path plan.reads.flatten) := by
    intro path
    split_ifs with hnil
    · cases hsome : out.lookup path with
      | none => rfl
      | some ranges =>
        obtain ⟨hne, entry, hentry, hpath, rfl⟩ := ha.source path ranges hsome
        obtain ⟨entries, hentries, hmem⟩ := List.mem_flatten.mp hentry
        obtain ⟨items, hitems, hf⟩ := exists_left_of_forall₂ hfiles hentries
        obtain ⟨-, hvalue⟩ := hf.mem_iff.mp hmem
        rw [hpath] at hvalue
        rw [hvalue] at hne
        have hsame := (hread path items hitems hne).1
        exact absurd ((rangesOf_congr hsame).symm.trans hnil) hne
    · obtain ⟨items, hitems, hranges⟩ := exists_read_of_rangesOf hnil
      obtain ⟨hsame, -, -, hfound⟩ := hread path items hitems hranges
      rw [hfound, rangesOf_congr hsame]
  refine ⟨ha.ascending, fun message read items hwithin hrel hlocal item hitem hranged => ?_,
    hlookup, fun path hsome => ?_⟩
  · have hitems := mem_reads_iff.mpr ⟨message, read, hwithin, hrel, hlocal⟩
    obtain ⟨entries, hentries, hf⟩ := exists_right_of_forall₂ hfiles hitems
    obtain ⟨path, hpath⟩ := Option.isSome_iff_exists.mp (hf.attributable item hitem hranged)
    refine ⟨path, hpath, ?_⟩
    rw [(hread path items hitems (canonical_mem_ranges hitem hpath hranged)).2.2.2]
    rfl
  · have hne : rangesOf path plan.reads.flatten ≠ [] := by
      intro hnil
      rw [hlookup, if_pos hnil] at hsome
      cases hsome
    obtain ⟨items, hitems, hranges⟩ := exists_read_of_rangesOf hne
    obtain ⟨hsame, hone, hwhole, -⟩ := hread path items hitems hranges
    refine ⟨hone, fun item hitem hpath => hwhole item ?_⟩
    rw [← hsame]
    exact List.mem_filter.mpr ⟨hitem, by simpa using hpath⟩

/-- **What `extract_scan_byte_ranges` returns.** -/
theorem extractScanByteRanges_ok {planBytes : β}
    (h : extractScanByteRanges parseFromString planBytes = .ok out) :
    ∃ plan, parseFromString planBytes = some plan ∧ Extracted plan out := by
  obtain ⟨inputs, hinspect, hout⟩ := bind_eq_ok.mp h
  obtain rfl := pure_eq_ok.mp hout
  unfold inspect at hinspect
  cases hparse : parseFromString planBytes with
  | none => simp [hparse] at hinspect
  | some plan =>
    refine ⟨plan, rfl, ?_⟩
    simp only [hparse, if_true, List.isEmpty_nil, Bool.not_true, if_neg Bool.false_ne_true]
      at hinspect
    obtain ⟨files, hvisit, hinspect⟩ := bind_eq_ok.mp hinspect
    obtain ⟨byteRanges, hattribute, hinputs⟩ := bind_eq_ok.mp hinspect
    obtain rfl := pure_eq_ok.mp hinputs
    rw [visitReads_eq] at hvisit
    cases hmap : plan.reads.mapM readFiles with
    | error e => simp [hmap] at hvisit
    | ok files' =>
      rw [hmap] at hvisit
      obtain rfl : files' = files := Except.ok.inj hvisit
      have hfiles : List.Forall₂ FilesOf plan.reads files' :=
        (forall₂_of_mapM_eq_ok hmap).imp fun _ _ => readFiles_ok
      have hnone : Attributed (readsPerPath files') [] [] := ⟨ascending_nil, by simp, by simp⟩
      have hdone := hnone.addReads files' hattribute
      rw [List.nil_append] at hdone
      exact extracted_of_attributed hfiles hdone

end Sirius.Planner.SubstraitScanRanges
