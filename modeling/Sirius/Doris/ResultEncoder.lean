import Sirius.Common.Wire

/-!
# Result packets of MySQL text rows

Model of `MysqlResultEncoder::encode_bounded`, `CellRenderer` and `MysqlTextRow`
(experimental/doris/src/result_encoder.rs:50-86, 108-251 and 253-292). Rows are encoded one after
the other and are handed to a callback in packets of bounded size. The texts of numbers, dates and
timestamps are made by third-party crates and are a parameter. A `Vec` never holds 2^63 bytes, so
the saturating and the plain sums of the source do not reach the end of `usize`.

* `encodeBounded`: the encoder with its callback.
* `decodeRow`: a row read back by the rules of the MySQL protocol.
* `decodeRow_encode`: encoding is inverted by decoding.
* `encode_bounded_correct`: the packets that are emitted, and when encoding fails.
-/

namespace Sirius.Doris.ResultEncoder

open Sirius.Common Sirius.Common.Wire

/-! ## Rows -/

/-- The bytes of a rendered value. -/
abbrev Text := { bytes : List UInt8 // bytes.length < 2 ^ 63 }

/-- `push_length` (lines 271-284). -/
def pushLength (len : ℕ) : List UInt8 :=
  if len < 251 then [UInt8.ofNat len]
  else if len < 2 ^ 16 then 0xFC :: leBytes 2 (len % 2 ^ 16)
  else if len < 2 ^ 24 then 0xFD :: (leBytes 4 (len % 2 ^ 32)).take 3
  else 0xFE :: leBytes 8 (len % 2 ^ 64)

/-- `push_cell` (lines 260-268): the bytes that a value appends. -/
def pushCell : Option Text → List UInt8
  | some text => pushLength text.1.length ++ text.1
  | none => [0xFB]

/-! ## Columns -/

inductive TimeUnit where
  | second
  | millisecond
  | microsecond
  | nanosecond
  deriving DecidableEq, Repr

/-- `TimeUnit` in units per second. -/
def TimeUnit.perSecond : TimeUnit → ℤ
  | second => 1
  | millisecond => 1000
  | microsecond => 1000000
  | nanosecond => 1000000000

/-- An Arrow array. -/
inductive ArrowArray where
  | utf8 (values : List (Option Text))
  | largeUtf8 (values : List (Option Text))
  | utf8View (values : List (Option Text))
  | boolean (values : List (Option Bool))
  | int8 (values : List (Option ℤ))
  | int16 (values : List (Option ℤ))
  | int32 (values : List (Option ℤ))
  | int64 (values : List (Option ℤ))
  | float32 (values : List (Option UInt32))
  | float64 (values : List (Option UInt64))
  | decimal128 (precision : ℕ) (scale : ℤ) (values : List (Option ℤ))
  | date32 (values : List (Option ℤ))
  | timestamp (unit : TimeUnit) (timezone : Option String) (values : List (Option ℤ))
  /-- An array of another type, by the debug text of the type. -/
  | other (dataType : String) (length : ℕ)
  deriving DecidableEq

def ArrowArray.length : ArrowArray → ℕ
  | utf8 values | largeUtf8 values | utf8View values => values.length
  | boolean values => values.length
  | int8 values | int16 values | int32 values | int64 values => values.length
  | float32 values => values.length
  | float64 values => values.length
  | decimal128 _ _ values | date32 values | timestamp _ _ values => values.length
  | other _ length => length

/-- A record batch: its columns have one value for each row. -/
structure RecordBatch where
  columns : List ArrowArray
  numRows : ℕ
  lengths : ∀ column ∈ columns, column.length = numRows

/-- What the crates `itoa`, `ryu`, `chrono` and `arrow` render. -/
structure Rendering where
  timestampType : TimeUnit → Option String → String
  integer : ℤ → Text
  float32 : UInt32 → Text
  float64 : UInt64 → Text
  decimal : ℤ → ℤ → Text
  /-- `as_date` and the format `%Y-%m-%d`. -/
  date : ℤ → Option Text
  /-- `as_datetime` and a format, with or without the fraction of the second. -/
  datetime : TimeUnit → ℤ → Bool → Option Text

/-- `CellKind`: the arrays that are rendered. -/
inductive CellKind where
  | text (values : List (Option Text))
  | boolean (values : List (Option Bool))
  | integer (values : List (Option ℤ))
  | float32 (values : List (Option UInt32))
  | float64 (values : List (Option UInt64))
  | decimal128 (scale : ℤ) (values : List (Option ℤ))
  | date32 (values : List (Option ℤ))
  | timestamp (unit : TimeUnit) (values : List (Option ℤ))

def notImplemented (dataType : String) : String :=
  s!"result encoding for arrow type {dataType} is not implemented yet"

section Render

variable (r : Rendering)

/-- `CellRenderer::new` (lines 136-182). -/
def newRenderer : ArrowArray → Except String CellKind
  | .utf8 values => .ok (.text values)
  | .largeUtf8 values => .ok (.text values)
  | .utf8View values => .ok (.text values)
  | .boolean values => .ok (.boolean values)
  | .int8 values => .ok (.integer values)
  | .int16 values => .ok (.integer values)
  | .int32 values => .ok (.integer values)
  | .int64 values => .ok (.integer values)
  | .float32 values => .ok (.float32 values)
  | .float64 values => .ok (.float64 values)
  | .decimal128 _ scale values => .ok (.decimal128 scale values)
  | .date32 values => .ok (.date32 values)
  | .timestamp .second none values => .ok (.timestamp .second values)
  | .timestamp .millisecond none values => .ok (.timestamp .millisecond values)
  | .timestamp .microsecond none values => .ok (.timestamp .microsecond values)
  | .timestamp unit timezone _ => .error (notImplemented (r.timestampType unit timezone))
  | .other dataType _ => .error (notImplemented dataType)

/-- A null is no text; another value is rendered. -/
def renderAt {α : Type} (values : List (Option α)) (render : α → Except String Text) (row : ℕ) :
    Except String (Option Text) :=
  match values[row]?.join with
  | none => .ok none
  | some value => do
    let text ← render value
    return some text

def renderDate (value : ℤ) : Except String Text :=
  match r.date value with
  | some text => .ok text
  | none => .error s!"date32 value {value} out of range"

/-- A timestamp shows its fraction when it has one. -/
def renderTimestamp (unit : TimeUnit) (value : ℤ) : Except String Text :=
  match r.datetime unit value (value.tmod unit.perSecond ≠ 0) with
  | some text => .ok text
  | none => .error s!"timestamp value {value} out of range"

/-- `CellRenderer::write` (lines 184-249): the value that is pushed. -/
def renderCell : CellKind → ℕ → Except String (Option Text)
  | .text values => renderAt values .ok
  | .boolean values =>
    renderAt values fun b => .ok ⟨if b then [0x31] else [0x30], by split <;> simp⟩
  | .integer values => renderAt values fun n => .ok (r.integer n)
  | .float32 values => renderAt values fun x => .ok (r.float32 x)
  | .float64 values => renderAt values fun x => .ok (r.float64 x)
  | .decimal128 scale values => renderAt values fun n => .ok (r.decimal scale n)
  | .date32 values => renderAt values (renderDate r)
  | .timestamp unit values => renderAt values (renderTimestamp r unit)

/-- One row: every column is rendered into the buffer. -/
def encodeRow (kinds : List CellKind) (row : ℕ) : Except String (List UInt8) :=
  kinds.foldlM (fun buf kind => do
    let cell ← renderCell r kind row
    return buf ++ pushCell cell) []

end Render

/-! ## Packets -/

/-- `TResultBatch`. -/
structure ResultBatch where
  rows : List (List UInt8)
  isCompressed : Bool
  packetSeq : ℤ
  deriving DecidableEq, Repr

/-- `into_result_batch` of the rows so far. -/
def intoResultBatch (rows : List (List UInt8)) : ResultBatch := ⟨rows, false, 0⟩

/-- The state of the loop: the rows of the packet, their bytes, and the state of the callback. -/
structure Encoder (σ : Type) where
  rows : List (List UInt8)
  bytes : ℕ
  sink : σ

section Encode

variable {σ : Type} (r : Rendering) (maxBytes : ℕ) (emit : σ → ResultBatch → Except String σ)

/-- The body of the loop, with the encoded row (lines 69-80). -/
def addRow (s : Encoder σ) (encoded : List UInt8) : Except String (Encoder σ) :=
  let rowBytes := encoded.length + 4
  if maxBytes < rowBytes then
    .error s!"encoded result row exceeds the {maxBytes}-byte packet limit"
  else if maxBytes < s.bytes + rowBytes ∧ s.rows ≠ [] then do
    let sink ← emit s.sink (intoResultBatch s.rows)
    return ⟨[encoded], rowBytes, sink⟩
  else return ⟨s.rows ++ [encoded], s.bytes + rowBytes, s.sink⟩

/-- The last packet (lines 82-84). -/
def finish (s : Encoder σ) : Except String σ :=
  if s.rows = [] then .ok s.sink else emit s.sink (intoResultBatch s.rows)

/-- `encode_bounded` (lines 50-86). -/
def encodeBounded (batch : RecordBatch) (sink : σ) : Except String σ := do
  let kinds ← batch.columns.mapM (newRenderer r)
  let s ← (List.range batch.numRows).foldlM (fun s row => do
    let encoded ← encodeRow r kinds row
    addRow maxBytes emit s encoded) ⟨[], 0, sink⟩
  finish emit s

end Encode

/-- The callback that collects the packets. -/
def collect (packets : List ResultBatch) (packet : ResultBatch) :
    Except String (List ResultBatch) :=
  .ok (packets ++ [packet])

/-- The packets that are emitted. -/
def emitted (r : Rendering) (maxBytes : ℕ) (batch : RecordBatch) :
    Except String (List ResultBatch) :=
  encodeBounded r maxBytes collect batch []

/-! ## Decoding a row -/

/-- A text behind its length. -/
def readText (length : Parser Unit ℕ) : Parser Unit (Option (List UInt8)) := do
  let n ← length
  let bytes ← readBytes n
  pure (some bytes)

/-- A value after its first byte: a short length, the null marker, or the prefix of a length of two,
    three or eight bytes. -/
def readAfter (first : ℕ) : Parser Unit (Option (List UInt8)) :=
  if first < 251 then readText (pure first)
  else if first = 251 then pure none
  else if first = 252 then readText (readNat 2)
  else if first = 253 then readText (readNat 3)
  else if first = 254 then readText (readNat 8)
  else throw ()

def readCell : Parser Unit (Option (List UInt8)) := do
  let first ← readNat 1
  readAfter first

/-- **A row by the rules of the MySQL protocol**: one value for each column, and nothing behind. -/
def decodeRow (columns : ℕ) (bytes : List UInt8) : Except Unit (List (Option (List UInt8))) :=
  match (readN readCell columns).run bytes with
  | .ok (cells, []) => .ok cells
  | _ => .error ()

theorem readText_inverts {length : Parser Unit ℕ} {lengthBytes : List UInt8} (text : List UInt8)
    (h : Inverts length lengthBytes text.length) :
    Inverts (readText length) (lengthBytes ++ text) (some text) :=
  h.bind (readBytes_inverts text).map

theorem take_leBytes (w k n : ℕ) : (leBytes (w + k) n).take w = leBytes w n := by
  induction w generalizing n with
  | zero => simp [leBytes]
  | succ w ih =>
    rw [show w + 1 + k = w + k + 1 by omega, leBytes, leBytes, List.take_succ_cons, ih]

/-- The first byte of a value decides how it is read. -/
theorem readCell_inverts_of (first : ℕ) {bytes : List UInt8} {cell : Option (List UInt8)}
    (hfirst : first < 256) (h : Inverts (readAfter first) bytes cell) :
    Inverts readCell (UInt8.ofNat first :: bytes) cell := by
  have hread : Inverts (readNat 1) (leBytes 1 first) first :=
    readNat_inverts (by simpa using hfirst)
  have hbyte : leBytes 1 first = [UInt8.ofNat first] := by
    rw [leBytes, leBytes, Nat.mod_eq_of_lt hfirst]
  rw [hbyte] at hread
  exact hread.bind h

/-- **Every value is read back**, the null apart from every text. -/
theorem readCell_inverts (cell : Option Text) :
    Inverts readCell (pushCell cell) (cell.map Subtype.val) := by
  cases cell with
  | none => exact readCell_inverts_of 251 (by norm_num) (Inverts.pure none)
  | some text =>
    obtain ⟨bytes, hbytes⟩ := text
    show Inverts readCell (pushLength bytes.length ++ bytes) (some bytes)
    unfold pushLength
    split_ifs with h1 h2 h3
    · refine readCell_inverts_of bytes.length (by omega) ?_
      rw [readAfter, if_pos h1]
      exact readText_inverts bytes (Inverts.pure _)
    · rw [Nat.mod_eq_of_lt h2]
      exact readCell_inverts_of 252 (by norm_num)
        (readText_inverts bytes (readNat_inverts h2))
    · rw [Nat.mod_eq_of_lt (by omega), take_leBytes 3 1]
      exact readCell_inverts_of 253 (by norm_num)
        (readText_inverts bytes (readNat_inverts h3))
    · rw [Nat.mod_eq_of_lt (by omega)]
      exact readCell_inverts_of 254 (by norm_num)
        (readText_inverts bytes (readNat_inverts (by omega)))

/-- The encoded row of rendered values. -/
def encodedRow (cells : List (Option Text)) : List UInt8 := cells.flatMap pushCell

/-- **A row is read back.** -/
theorem decodeRow_encode (cells : List (Option Text)) :
    decodeRow cells.length (encodedRow cells) = .ok (cells.map (Option.map Subtype.val)) := by
  have hrow : Inverts (readN readCell cells.length) (encodedRow cells)
      (cells.map (Option.map Subtype.val)) := Inverts.readN fun cell _ => readCell_inverts cell
  have hrun := hrow []
  rw [List.append_nil] at hrun
  rw [decodeRow, hrun]

/-! ## The loop -/

section Loop

variable {r : Rendering} {maxBytes : ℕ}

/-- The value of a column in a row. -/
def renderColumn (r : Rendering) (row : ℕ) (column : ArrowArray) : Except String (Option Text) := do
  let kind ← newRenderer r column
  renderCell r kind row

/-- What the rows of a packet take, with four bytes for the length of each. -/
def rowsSize (rows : List (List UInt8)) : ℕ := (rows.map fun row => row.length + 4).sum

theorem rowsSize_concat (rows : List (List UInt8)) (row : List UInt8) :
    rowsSize (rows ++ [row]) = rowsSize rows + (row.length + 4) := by
  simp [rowsSize]

/-- A loop that makes a value and then uses it is a loop over the values. -/
theorem foldlM_bind_eq_ok {α β τ : Type} {f : α → Except String β} {g : τ → β → Except String τ}
    {xs : List α} {s t : τ} :
    xs.foldlM (fun s x => f x >>= g s) s = .ok t ↔
      ∃ ys, xs.mapM f = .ok ys ∧ ys.foldlM g s = .ok t := by
  induction xs generalizing s with
  | nil =>
    constructor
    · intro h
      exact ⟨[], rfl, h⟩
    · rintro ⟨ys, hys, h⟩
      obtain rfl := pure_eq_ok.mp hys
      exact h
  | cons x xs ih =>
    rw [List.foldlM_cons, List.mapM_cons]
    constructor
    · intro h
      obtain ⟨s', hstep, hrest⟩ := bind_eq_ok.mp h
      obtain ⟨y, hy, hg⟩ := bind_eq_ok.mp hstep
      obtain ⟨ys, hys, hfold⟩ := ih.mp hrest
      refine ⟨y :: ys, ?_, ?_⟩
      · rw [hy, ok_bind, hys]
        rfl
      · rw [List.foldlM_cons, hg]
        exact hfold
    · rintro ⟨zs, hzs, hfold⟩
      obtain ⟨y, hy, hrest⟩ := bind_eq_ok.mp hzs
      obtain ⟨ys, hys, hcons⟩ := bind_eq_ok.mp hrest
      obtain rfl := pure_eq_ok.mp hcons
      rw [List.foldlM_cons] at hfold
      obtain ⟨s', hg, hfold⟩ := bind_eq_ok.mp hfold
      exact bind_eq_ok.mpr ⟨s', bind_eq_ok.mpr ⟨y, hy, hg⟩, ih.mpr ⟨ys, hys, hfold⟩⟩

theorem exists_mapM_eq_ok {α β : Type} {f : α → Except String β} {xs : List α} :
    (∃ ys, xs.mapM f = .ok ys) ↔ ∀ x ∈ xs, ∃ y, f x = .ok y := by
  constructor
  · rintro ⟨ys, h⟩ x hx
    obtain ⟨y, -, hy⟩ := exists_of_mem_mapM h x hx
    exact ⟨y, hy⟩
  · intro h
    induction xs with
    | nil => exact ⟨[], rfl⟩
    | cons x xs ih =>
      obtain ⟨y, hy⟩ := h x List.mem_cons_self
      obtain ⟨ys, hys⟩ := ih fun x hx => h x (List.mem_cons_of_mem _ hx)
      refine ⟨y :: ys, ?_⟩
      rw [List.mapM_cons, hy, ok_bind, hys]
      rfl

/-- A row is the concatenation of its rendered values. -/
theorem encodeRow_eq_ok {kinds : List CellKind} {row : ℕ} {bytes : List UInt8} :
    encodeRow r kinds row = .ok bytes ↔
      ∃ cells, kinds.mapM (renderCell r · row) = .ok cells ∧ bytes = encodedRow cells := by
  have hpush : ∀ (cells : List (Option Text)) (buf : List UInt8),
      cells.foldlM (fun buf cell => (.ok (buf ++ pushCell cell) : Except String (List UInt8))) buf
        = .ok (buf ++ encodedRow cells) := by
    intro cells
    induction cells with
    | nil => simp [encodedRow, pure, Except.pure]
    | cons cell cells ih =>
      intro buf
      rw [List.foldlM_cons, ok_bind, ih, encodedRow, encodedRow, List.flatMap_cons,
        List.append_assoc]
  unfold encodeRow
  rw [show (fun buf kind => do
      let cell ← renderCell r kind row
      return buf ++ pushCell cell) = fun (buf : List UInt8) kind =>
        (renderCell r kind row >>= fun cell => .ok (buf ++ pushCell cell)) from rfl,
    foldlM_bind_eq_ok]
  constructor
  · rintro ⟨cells, hcells, hfold⟩
    rw [hpush, List.nil_append] at hfold
    exact ⟨cells, hcells, (Except.ok.inj hfold).symm⟩
  · rintro ⟨cells, hcells, rfl⟩
    exact ⟨cells, hcells, hpush cells []⟩

/-- Between two rows: the packets and the rows of the next one are the rows so far, and they fit. -/
structure Packing (maxBytes : ℕ) (done : List (List UInt8)) (s : Encoder (List ResultBatch)) :
    Prop where
  rows : s.sink.flatMap ResultBatch.rows ++ s.rows = done
  bytes : s.bytes = rowsSize s.rows
  fits : s.bytes ≤ maxBytes
  packets : ∀ packet ∈ s.sink, packet.rows ≠ [] ∧ rowsSize packet.rows ≤ maxBytes

variable {s : Encoder (List ResultBatch)}

theorem Packing.emit {done : List (List UInt8)} (h : Packing maxBytes done s)
    (hrows : s.rows ≠ []) :
    (s.sink ++ [intoResultBatch s.rows]).flatMap ResultBatch.rows = done ∧
      ∀ packet ∈ s.sink ++ [intoResultBatch s.rows],
        packet.rows ≠ [] ∧ rowsSize packet.rows ≤ maxBytes := by
  constructor
  · rw [List.flatMap_append, List.flatMap_singleton]
    exact h.rows
  · intro packet hpacket
    rcases List.mem_append.mp hpacket with hpacket | hpacket
    · exact h.packets packet hpacket
    · rw [List.mem_singleton.mp hpacket]
      exact ⟨hrows, h.bytes ▸ h.fits⟩

/-- **One row**: it is refused when it does not fit alone; else it goes into the packet or starts
    the next one. -/
theorem addRow_packing {done : List (List UInt8)} (h : Packing maxBytes done s)
    (encoded : List UInt8) :
    (maxBytes < encoded.length + 4 ∧ ∃ e, addRow maxBytes collect s encoded = .error e) ∨
      (encoded.length + 4 ≤ maxBytes ∧ ∃ s', addRow maxBytes collect s encoded = .ok s' ∧
        Packing maxBytes (done ++ [encoded]) s') := by
  unfold addRow
  by_cases hlarge : maxBytes < encoded.length + 4
  · exact .inl ⟨hlarge, _, if_pos hlarge⟩
  · refine .inr ⟨by omega, ?_⟩
    rw [if_neg hlarge]
    by_cases hfull : maxBytes < s.bytes + (encoded.length + 4) ∧ s.rows ≠ []
    · rw [if_pos hfull]
      obtain ⟨hdone, hpackets⟩ := h.emit hfull.2
      refine ⟨_, rfl, ?_, ?_, ?_, hpackets⟩
      · show (s.sink ++ [intoResultBatch s.rows]).flatMap ResultBatch.rows ++ [encoded] = _
        rw [hdone]
      · simp [rowsSize]
      · show encoded.length + 4 ≤ maxBytes
        omega
    · rw [if_neg hfull]
      refine ⟨_, rfl, ?_, ?_, ?_, h.packets⟩
      · show s.sink.flatMap ResultBatch.rows ++ (s.rows ++ [encoded]) = _
        rw [← List.append_assoc, h.rows]
      · show s.bytes + (encoded.length + 4) = rowsSize (s.rows ++ [encoded])
        rw [rowsSize_concat, h.bytes]
      · show s.bytes + (encoded.length + 4) ≤ maxBytes
        by_cases hrows : s.rows = []
        · have hzero : s.bytes = 0 := by rw [h.bytes, hrows]; rfl
          omega
        · have hlt : ¬maxBytes < s.bytes + (encoded.length + 4) := fun hlt => hfull ⟨hlt, hrows⟩
          omega

/-- **The whole loop** returns when every row fits. -/
theorem addRows_packing {rows done : List (List UInt8)} (h : Packing maxBytes done s) :
    (∀ t, rows.foldlM (addRow maxBytes collect) s = .ok t → Packing maxBytes (done ++ rows) t) ∧
      ((∃ t, rows.foldlM (addRow maxBytes collect) s = .ok t) ↔
        ∀ row ∈ rows, row.length + 4 ≤ maxBytes) := by
  induction rows generalizing done s with
  | nil =>
    refine ⟨fun t ht => ?_, ?_⟩
    · obtain rfl := pure_eq_ok.mp ht
      rwa [List.append_nil]
    · exact ⟨fun _ row hrow => absurd hrow List.not_mem_nil, fun _ => ⟨s, rfl⟩⟩
  | cons row rows ih =>
    rw [List.foldlM_cons]
    obtain ⟨hlarge, e, he⟩ | ⟨hfits, s', hs', hpacking⟩ := addRow_packing h row
    · rw [he]
      refine ⟨fun t ht => absurd ht (by simp [bind, Except.bind]), ?_⟩
      constructor
      · rintro ⟨t, ht⟩
        cases ht
      · intro hall
        have hrow := hall row List.mem_cons_self
        omega
    · rw [hs', ok_bind]
      obtain ⟨hok, hiff⟩ := ih hpacking
      refine ⟨fun t ht => ?_, ?_⟩
      · have hrest := hok t ht
        rwa [List.append_assoc, List.singleton_append] at hrest
      · rw [hiff, List.forall_mem_cons]
        exact ⟨fun hrest => ⟨hfits, hrest⟩, fun hall => hall.2⟩

end Loop

/-! ## The emitted packets -/

section Emitted

variable {r : Rendering} {maxBytes : ℕ} {batch : RecordBatch}

/-- The values of a row. -/
def renderRow (r : Rendering) (batch : RecordBatch) (row : ℕ) :
    Except String (List (Option Text)) :=
  batch.columns.mapM (renderColumn r row)

theorem renderRow_eq {kinds : List CellKind} (h : batch.columns.mapM (newRenderer r) = .ok kinds)
    {row : ℕ} {cells : List (Option Text)} :
    renderRow r batch row = .ok cells ↔ kinds.mapM (renderCell r · row) = .ok cells := by
  have hpairs := forall₂_of_mapM_eq_ok h
  unfold renderRow
  generalize batch.columns = columns at hpairs
  clear h
  induction hpairs generalizing cells with
  | nil => rfl
  | @cons column kind columns kinds hkind _ ih =>
    have hcolumn : renderColumn r row column = renderCell r kind row := by
      rw [renderColumn, hkind, ok_bind]
    rw [List.mapM_cons, List.mapM_cons, hcolumn, bind_eq_ok, bind_eq_ok]
    refine exists_congr fun cell => and_congr_right fun _ => ?_
    rw [bind_eq_ok, bind_eq_ok]
    exact exists_congr fun rest => and_congr_left fun _ => ih

/-- The stages of `encode_bounded` with the collecting callback. -/
theorem emitted_eq_ok {packets : List ResultBatch} :
    emitted r maxBytes batch = .ok packets ↔
      ∃ kinds rows s, batch.columns.mapM (newRenderer r) = .ok kinds ∧
        (List.range batch.numRows).mapM (encodeRow r kinds) = .ok rows ∧
        rows.foldlM (addRow maxBytes collect) ⟨[], 0, []⟩ = .ok s ∧
        finish collect s = .ok packets := by
  unfold emitted encodeBounded
  rw [bind_eq_ok]
  constructor
  · rintro ⟨kinds, hkinds, h⟩
    obtain ⟨s, hloop, hfinish⟩ := bind_eq_ok.mp h
    obtain ⟨rows, hrows, hfold⟩ := foldlM_bind_eq_ok.mp hloop
    exact ⟨kinds, rows, s, hkinds, hrows, hfold, hfinish⟩
  · rintro ⟨kinds, rows, s, hkinds, hrows, hfold, hfinish⟩
    exact ⟨kinds, hkinds, bind_eq_ok.mpr ⟨s, foldlM_bind_eq_ok.mpr ⟨rows, hrows, hfold⟩, hfinish⟩⟩

theorem packing_start : Packing maxBytes [] ⟨[], 0, []⟩ where
  rows := rfl
  bytes := rfl
  fits := Nat.zero_le _
  packets := fun _ h => absurd h List.not_mem_nil

theorem finish_packing {rows : List (List UInt8)} {s : Encoder (List ResultBatch)}
    (h : Packing maxBytes rows s) : ∃ packets, finish collect s = .ok packets ∧
      packets.flatMap ResultBatch.rows = rows ∧
      ∀ packet ∈ packets, packet.rows ≠ [] ∧ rowsSize packet.rows ≤ maxBytes := by
  unfold finish
  by_cases hrows : s.rows = []
  · refine ⟨s.sink, if_pos hrows, ?_, h.packets⟩
    have hdone := h.rows
    rwa [hrows, List.append_nil] at hdone
  · rw [if_neg hrows]
    exact ⟨_, rfl, h.emit hrows⟩

/-- **The packets** are not empty, they fit, and their rows are the rows of the batch, each of which
    is read back. -/
theorem emitted_rows {packets : List ResultBatch} (h : emitted r maxBytes batch = .ok packets) :
    (∀ packet ∈ packets, packet.rows ≠ [] ∧ rowsSize packet.rows ≤ maxBytes) ∧
      ∃ cells, (List.range batch.numRows).mapM (renderRow r batch) = .ok cells ∧
        List.Forall₂ (fun bytes row => decodeRow batch.columns.length bytes
          = .ok (row.map (Option.map Subtype.val))) (packets.flatMap ResultBatch.rows) cells := by
  obtain ⟨kinds, rows, s, hkinds, hrows, hfold, hfinish⟩ := emitted_eq_ok.mp h
  have hpacking := (addRows_packing packing_start).1 s hfold
  obtain ⟨packets', hfinish', hflat, hpackets⟩ := finish_packing hpacking
  obtain rfl := Except.ok.inj (hfinish.symm.trans hfinish')
  refine ⟨hpackets, ?_⟩
  rw [hflat, List.nil_append]
  have hencoded := forall₂_of_mapM_eq_ok hrows
  clear hrows hfold hpacking hflat
  generalize List.range batch.numRows = indices at hencoded
  induction hencoded with
  | nil => exact ⟨[], rfl, .nil⟩
  | @cons row bytes indices rows hrow _ ih =>
    obtain ⟨cells, hcells, hdecoded⟩ := ih
    obtain ⟨values, hvalues, rfl⟩ := encodeRow_eq_ok.mp hrow
    refine ⟨values :: cells, ?_, .cons ?_ hdecoded⟩
    · rw [List.mapM_cons, (renderRow_eq hkinds).mpr hvalues, ok_bind, hcells]
      rfl
    · have hlength : batch.columns.length = values.length :=
        (length_of_mapM_eq_ok hkinds).trans (length_of_mapM_eq_ok hvalues)
      rw [hlength]
      exact decodeRow_encode values

/-- **Encoding returns** when every column and every value is rendered and every row fits. -/
theorem exists_emitted_iff : (∃ packets, emitted r maxBytes batch = .ok packets) ↔
    (∀ column ∈ batch.columns, ∃ kind, newRenderer r column = .ok kind) ∧
      ∀ row < batch.numRows, ∃ cells, renderRow r batch row = .ok cells ∧
        (encodedRow cells).length + 4 ≤ maxBytes := by
  constructor
  · rintro ⟨packets, h⟩
    obtain ⟨kinds, rows, s, hkinds, hrows, hfold, -⟩ := emitted_eq_ok.mp h
    have hfits := (addRows_packing packing_start).2.mp ⟨s, hfold⟩
    refine ⟨exists_mapM_eq_ok.mp ⟨kinds, hkinds⟩, fun row hrow => ?_⟩
    obtain ⟨bytes, hmem, hbytes⟩ := exists_of_mem_mapM hrows row (List.mem_range.mpr hrow)
    obtain ⟨cells, hcells, rfl⟩ := encodeRow_eq_ok.mp hbytes
    exact ⟨cells, (renderRow_eq hkinds).mpr hcells, hfits _ hmem⟩
  · rintro ⟨hcolumns, hall⟩
    obtain ⟨kinds, hkinds⟩ := exists_mapM_eq_ok.mpr hcolumns
    have hencode : ∀ row ∈ List.range batch.numRows,
        ∃ bytes, encodeRow r kinds row = .ok bytes := by
      intro row hrow
      obtain ⟨cells, hcells, -⟩ := hall row (List.mem_range.mp hrow)
      exact ⟨_, encodeRow_eq_ok.mpr ⟨cells, (renderRow_eq hkinds).mp hcells, rfl⟩⟩
    obtain ⟨rows, hrows⟩ := exists_mapM_eq_ok.mpr hencode
    have hfits : ∀ row ∈ rows, row.length + 4 ≤ maxBytes := by
      intro bytes hbytes
      obtain ⟨row, hrow, hencoded⟩ := exists_of_mapM_eq_ok hrows bytes hbytes
      obtain ⟨cells, hcells, hfit⟩ := hall row (List.mem_range.mp hrow)
      have hsame := encodeRow_eq_ok.mpr ⟨cells, (renderRow_eq hkinds).mp hcells, rfl⟩
      obtain rfl := Except.ok.inj (hencoded.symm.trans hsame)
      exact hfit
    obtain ⟨s, hfold⟩ := (addRows_packing packing_start).2.mpr hfits
    obtain ⟨packets, hfinish, -⟩ := finish_packing ((addRows_packing packing_start).1 s hfold)
    exact ⟨packets, emitted_eq_ok.mpr ⟨kinds, rows, s, hkinds, hrows, hfold, hfinish⟩⟩

/-! ## Other callbacks -/

section Callback

variable {σ : Type} {emit : σ → ResultBatch → Except String σ} {next : σ → ResultBatch → σ}

/-- The state of the loop with the packets handed to another callback. -/
def handOver (next : σ → ResultBatch → σ) (sink : σ) (s : Encoder (List ResultBatch)) :
    Encoder σ :=
  ⟨s.rows, s.bytes, s.sink.foldl next sink⟩

theorem addRow_handOver (hemit : ∀ s packet, emit s packet = .ok (next s packet)) (sink : σ)
    (s : Encoder (List ResultBatch)) (encoded : List UInt8) :
    addRow maxBytes emit (handOver next sink s) encoded
      = (addRow maxBytes collect s encoded).map (handOver next sink) := by
  obtain ⟨rows, bytes, packets⟩ := s
  show addRow maxBytes emit ⟨rows, bytes, packets.foldl next sink⟩ encoded = _
  unfold addRow
  dsimp only
  split_ifs
  · rfl
  · rw [hemit]
    show Except.ok _ = Except.ok _
    rw [handOver, List.foldl_append]
    rfl
  · rfl

theorem finish_handOver (hemit : ∀ s packet, emit s packet = .ok (next s packet)) (sink : σ)
    (s : Encoder (List ResultBatch)) :
    finish emit (handOver next sink s)
      = (finish collect s).map fun packets => packets.foldl next sink := by
  obtain ⟨rows, bytes, packets⟩ := s
  show finish emit ⟨rows, bytes, packets.foldl next sink⟩ = _
  unfold finish
  dsimp only
  split_ifs
  · rfl
  · rw [hemit]
    show Except.ok _ = Except.ok ((packets ++ [intoResultBatch rows]).foldl next sink)
    rw [List.foldl_append]
    rfl

/-- **A callback that succeeds** is handed the emitted packets in order. -/
theorem encodeBounded_eq (hemit : ∀ s packet, emit s packet = .ok (next s packet)) (sink : σ) :
    encodeBounded r maxBytes emit batch sink
      = (emitted r maxBytes batch).map fun packets => packets.foldl next sink := by
  have hloop : ∀ (kinds : List CellKind) (rows : List ℕ) (s : Encoder (List ResultBatch)),
      rows.foldlM (fun s row => do
          let encoded ← encodeRow r kinds row
          addRow maxBytes emit s encoded) (handOver next sink s)
        = (rows.foldlM (fun s row => do
          let encoded ← encodeRow r kinds row
          addRow maxBytes collect s encoded) s).map (handOver next sink) := by
    intro kinds rows
    induction rows with
    | nil =>
      intro s
      rfl
    | cons row rows ih =>
      intro s
      rw [List.foldlM_cons, List.foldlM_cons]
      cases encodeRow r kinds row with
      | error e => rfl
      | ok encoded =>
        rw [ok_bind, ok_bind, addRow_handOver hemit]
        cases addRow maxBytes collect s encoded with
        | error e => rfl
        | ok s' => exact ih s'
  unfold emitted encodeBounded
  cases batch.columns.mapM (newRenderer r) with
  | error e => rfl
  | ok kinds =>
    rw [ok_bind, ok_bind]
    refine (congrArg (· >>= finish emit)
      (hloop kinds (List.range batch.numRows) ⟨[], 0, []⟩)).trans ?_
    cases (List.range batch.numRows).foldlM (fun s row => do
        let encoded ← encodeRow r kinds row
        addRow maxBytes collect s encoded) (⟨[], 0, []⟩ : Encoder (List ResultBatch)) with
    | error e => rfl
    | ok s => exact finish_handOver hemit sink s

end Callback

/-- **`encode_bounded`.** A callback that succeeds is handed the emitted packets in order; these are
    not empty, take at most the limit, and their rows decode to the rendered values of the rows of
    the batch, in order; and encoding fails when and only when a column or a value cannot be
    rendered or a row with its four bytes exceeds the limit. -/
theorem encode_bounded_correct (r : Rendering) (maxBytes : ℕ) (batch : RecordBatch) :
    (∀ (σ : Type) (emit : σ → ResultBatch → Except String σ) (next : σ → ResultBatch → σ)
        (sink : σ),
      (∀ s packet, emit s packet = .ok (next s packet)) →
      encodeBounded r maxBytes emit batch sink
        = (emitted r maxBytes batch).map fun packets => packets.foldl next sink) ∧
    (∀ packets, emitted r maxBytes batch = .ok packets →
      (∀ packet ∈ packets, packet.rows ≠ [] ∧ rowsSize packet.rows ≤ maxBytes) ∧
      ∃ cells, (List.range batch.numRows).mapM (renderRow r batch) = .ok cells ∧
        List.Forall₂ (fun bytes row => decodeRow batch.columns.length bytes
          = .ok (row.map (Option.map Subtype.val))) (packets.flatMap ResultBatch.rows) cells) ∧
    ((∃ e, emitted r maxBytes batch = .error e) ↔
      (∃ column ∈ batch.columns, ∃ e, newRenderer r column = .error e) ∨
      (∃ row < batch.numRows, ∃ e, renderRow r batch row = .error e) ∨
      ∃ row < batch.numRows, ∃ cells, renderRow r batch row = .ok cells ∧
        maxBytes < (encodedRow cells).length + 4) := by
  refine ⟨fun σ emit next sink hemit => encodeBounded_eq hemit sink, fun _ => emitted_rows, ?_⟩
  have herror : ∀ {α : Type} (x : Except String α), (∃ e, x = .error e) ↔ ¬∃ a, x = .ok a := by
    intro α x
    cases x <;> simp
  rw [herror, exists_emitted_iff]
  constructor
  · intro hnot
    by_contra hnone
    push Not at hnone
    obtain ⟨hcolumns, hrows, hfits⟩ := hnone
    refine hnot ⟨fun column hcolumn => ?_, fun row hrow => ?_⟩
    · by_contra hno
      obtain ⟨e, he⟩ := (herror _).mpr hno
      exact hcolumns column hcolumn e he
    · by_cases hok : ∃ cells, renderRow r batch row = .ok cells
      · obtain ⟨cells, hcells⟩ := hok
        exact ⟨cells, hcells, hfits row hrow cells hcells⟩
      · obtain ⟨e, he⟩ := (herror _).mpr hok
        exact absurd he (hrows row hrow e)
  · rintro (⟨column, hcolumn, e, he⟩ | ⟨row, hrow, e, he⟩ | ⟨row, hrow, cells, hcells, hlarge⟩)
      ⟨hcolumns, hall⟩
    · obtain ⟨kind, hkind⟩ := hcolumns column hcolumn
      rw [hkind] at he
      cases he
    · obtain ⟨cells, hcells, -⟩ := hall row hrow
      rw [hcells] at he
      cases he
    · obtain ⟨cells', hcells', hfit⟩ := hall row hrow
      obtain rfl := Except.ok.inj (hcells.symm.trans hcells')
      omega

/-- The number 42, as it is written, and an empty text for what the example does not hold. -/
def shownRendering : Rendering where
  timestampType _ _ := ""
  integer n := ⟨if n = 42 then [0x34, 0x32] else [], by split <;> simp⟩
  float32 _ := ⟨[], by simp⟩
  float64 _ := ⟨[], by simp⟩
  decimal _ _ := ⟨[], by simp⟩
  date _ := none
  datetime _ _ _ := none

/-- The rows `(42, "hi")` and `(NULL, "x")`. -/
def shownBatch : RecordBatch where
  columns := [.int64 [some 42, none],
    .utf8 [some ⟨[0x68, 0x69], by simp⟩, some ⟨[0x78], by simp⟩]]
  numRows := 2
  lengths := by simp [ArrowArray.length]

theorem encode_bounded_correct_shownBatch :
    emitted shownRendering 12 shownBatch
      = .ok [⟨[[2, 0x34, 0x32, 2, 0x68, 0x69]], false, 0⟩, ⟨[[0xFB, 1, 0x78]], false, 0⟩] ∧
    ∃ cells, (List.range 2).mapM (renderRow shownRendering shownBatch) = .ok cells ∧
      List.Forall₂ (fun bytes row => decodeRow 2 bytes = .ok (row.map (Option.map Subtype.val)))
        [[2, 0x34, 0x32, 2, 0x68, 0x69], [0xFB, 1, 0x78]] cells := by
  have hemitted : emitted shownRendering 12 shownBatch
      = .ok [⟨[[2, 0x34, 0x32, 2, 0x68, 0x69]], false, 0⟩, ⟨[[0xFB, 1, 0x78]], false, 0⟩] := rfl
  exact ⟨hemitted, ((encode_bounded_correct shownRendering 12 shownBatch).2.1 _ hemitted).2⟩

end Emitted

end Sirius.Doris.ResultEncoder
