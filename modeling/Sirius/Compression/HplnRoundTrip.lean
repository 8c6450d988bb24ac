import Sirius.Compression.Hpln

/-!
# What the parser makes of the writer's header

`records` are the records the writer means: every field it pushes, with the payload
offset it had reached. The parser reads them back exactly when every count and every
string fits the field it is cast to, the metadata and the validity pass the parser's
own checks, and the payload is addressable.

* `parse_fits`: whatever the bytes, the records a parse returns fit.
* `header_roundtrip`: the header of a table reads back, and its offsets tile the
  payload, if and only if the table fits.
-/

namespace Sirius.Compression.Hpln

open Sirius.Common Sirius.Common.Wire

/-! ## Specification -/

/-- What a node leaves in the header: the parser has no representations, and mirrors
the output names as output paths. -/
def PlanNode.stored (node : PlanNode) : PlanNode :=
  { node with outputPaths := node.outputNames, rep := none, channels := [] }

/-- The validity of a column whose mask stands at `offset`. -/
def ValiditySidecar.record (v : ValiditySidecar) (offset : UInt64) : ValidityRecord :=
  match v.kind with
  | .allValid => ⟨.allValid, 0, 0, 0⟩
  | .allNull => ⟨.allNull, v.nullCount, 0, 0⟩
  | .mask => ⟨.mask, v.nullCount, v.maskSize, offset⟩

/-- The bytes of a mask in the payload. -/
def ValiditySidecar.sizes (v : ValiditySidecar) : List UInt64 :=
  match v.kind with
  | .mask => [v.maskSize]
  | _ => []

def LeafDesc.sizes (ld : LeafDesc) : List UInt64 := ld.buffers.map LeafBufferDesc.sizeBytes

/-- The offset behind buffers of these sizes. -/
def endOf (offset : UInt64) (sizes : List UInt64) : UInt64 := sizes.foldl (· + ·) offset

/-- Buffers one behind the other: their offsets and sizes. -/
def spansFrom : UInt64 → List UInt64 → List (UInt64 × UInt64)
  | _, [] => []
  | offset, size :: sizes => (offset, size) :: spansFrom (offset + size) sizes

def LeafDesc.offsets (ld : LeafDesc) (offset : UInt64) : List UInt64 :=
  (spansFrom offset ld.sizes).map Prod.fst

/-- The leaves of a column with the offsets of their buffers. -/
def leafRecords : UInt64 → List LeafDesc → List (LeafDesc × List UInt64)
  | _, [] => []
  | offset, ld :: lds => (ld, ld.offsets offset) :: leafRecords (endOf offset ld.sizes) lds

/-- The plan tree the writer uses. -/
def CompressedColumn.tree (col : CompressedColumn) : PlanTree := col.planTree.getD emptyTree

/-- The bytes of a column's buffers, in the order of the payload. -/
def columnSizes (c : CompressedColumn × List LeafDesc) : List UInt64 :=
  c.1.tree.validity.sizes ++ c.2.flatMap LeafDesc.sizes

/-- The record of a column whose buffers start at `offset`. -/
def columnRecord (offset : UInt64) (c : CompressedColumn × List LeafDesc) : ColRecord :=
  let leaves := leafRecords (endOf offset c.1.tree.validity.sizes) c.2
  { name := c.1.name.getD []
    dtypeTag := dtypeToTag c.1.dtype
    scale := c.1.dtype.scale
    numRows := c.1.numRows
    validity := c.1.tree.validity.record offset
    nodes := c.1.tree.nodes.map PlanNode.stored
    leafDescs := leaves.map Prod.fst
    bufOffsets := leaves.map Prod.snd }

/-- The records of a table. -/
def records : UInt64 → List (CompressedColumn × List LeafDesc) → List ColRecord
  | _, [] => []
  | offset, c :: cs => columnRecord offset c :: records (endOf offset (columnSizes c)) cs

/-- The offsets and sizes that a column's record holds, in order. -/
def ColRecord.spans (r : ColRecord) : List (UInt64 × UInt64) :=
  (match r.validity.kind with
    | .mask => [(r.validity.payloadOffset, r.validity.sizeBytes)]
    | _ => []) ++
  (r.bufOffsets.zip r.leafDescs).flatMap fun l => l.1.zip l.2.sizes

/-- The spans lie one behind the other from `start` to `stop`, with no gap. -/
def Tiles : ℕ → List (UInt64 × UInt64) → ℕ → Prop
  | start, [], stop => start = stop
  | start, s :: spans, stop => s.1.toNat = start ∧ Tiles (start + s.2.toNat) spans stop

/-! ## What fits -/

/-- A string fits its 16-bit length. -/
def StrFits (s : Str) : Prop := s.length < 65536

instance (s : Str) : Decidable (StrFits s) := inferInstanceAs (Decidable (s.length < 65536))

def BitjoinAttrs.Fits (bj : BitjoinAttrs) : Prop :=
  bj.inputs.length < 65536 ∧ (∀ i ∈ bj.inputs, StrFits i.channel) ∧
    tagToDtype (dtypeToTag bj.outputType) = bj.outputType

def PlanNode.Fits (node : PlanNode) : Prop :=
  StrFits node.op ∧ (∀ bj, node.bitjoin = some bj → bj.Fits) ∧
    node.children.length < 65536 ∧ (∀ e ∈ node.children, StrFits e.channel) ∧
    node.outputNames.length < 65536 ∧ ∀ n ∈ node.outputNames, StrFits n

def LeafDesc.Fits (major : UInt8) (ld : LeafDesc) : Prop :=
  metaError major ld.metadata = none ∧ ld.buffers.length < 256 ∧ ∀ b ∈ ld.buffers, StrFits b.name

/-- The record of a column fits the format and passes the parser's checks. -/
structure ColRecord.Fits (cudf : Cudf) (major : UInt8) (r : ColRecord) : Prop where
  name : StrFits r.name
  validity : validityError cudf r.numRows r.validity = none
  nodes_length : r.nodes.length < 65536
  nodes : ∀ n ∈ r.nodes, n.Fits
  leaves_length : r.leafDescs.length < 65536
  leaves : ∀ l ∈ r.leafDescs, l.Fits major

/-- The column fits the format and passes the parser's checks. -/
structure ColumnFits (cudf : Cudf) (major : UInt8) (c : CompressedColumn × List LeafDesc) :
    Prop where
  name : StrFits (c.1.name.getD [])
  validity : validityError cudf c.1.numRows (c.1.tree.validity.record 0) = none
  nodes_length : c.1.tree.nodes.length < 65536
  nodes : ∀ n ∈ c.1.tree.nodes, n.Fits
  leaves_length : c.2.length < 65536
  leaves : ∀ l ∈ c.2, l.Fits major

/-- The bytes of all the buffers of a table. -/
def tableSizes (cs : List (CompressedColumn × List LeafDesc)) : List UInt64 :=
  cs.flatMap columnSizes

def totalBytes (sizes : List UInt64) : ℕ := (sizes.map UInt64.toNat).sum

/-- The table fits the format: its columns do, their count fits 16 bits, and the payload
is addressable. -/
structure TableFits (cudf : Cudf) (major : UInt8) (cs : List (CompressedColumn × List LeafDesc)) :
    Prop where
  length : cs.length < 65536
  columns : ∀ c ∈ cs, ColumnFits cudf major c
  payload : totalBytes (tableSizes cs) < 2 ^ 64

/-! ## Tiling -/

theorem endOf_append (offset : UInt64) (as bs : List UInt64) :
    endOf offset (as ++ bs) = endOf (endOf offset as) bs :=
  List.foldl_append

theorem spansFrom_append (offset : UInt64) (as bs : List UInt64) :
    spansFrom offset (as ++ bs) = spansFrom offset as ++ spansFrom (endOf offset as) bs := by
  induction as generalizing offset with
  | nil => rfl
  | cons a as ih =>
    rw [List.cons_append, spansFrom, spansFrom, ih, List.cons_append]
    rfl

theorem spansFrom_fst_zip (offset : UInt64) (sizes : List UInt64) :
    ((spansFrom offset sizes).map Prod.fst).zip sizes = spansFrom offset sizes := by
  induction sizes generalizing offset with
  | nil => rfl
  | cons s sizes ih => rw [spansFrom, List.map_cons, List.zip_cons_cons, ih]

theorem tiles_sum {start stop : ℕ} {spans : List (UInt64 × UInt64)} (h : Tiles start spans stop) :
    stop = start + totalBytes (spans.map Prod.snd) := by
  induction spans generalizing start with
  | nil => exact h.symm
  | cons s spans ih =>
    have hrest := ih h.2
    simp only [totalBytes, List.map_cons, List.sum_cons] at hrest ⊢
    omega

theorem spansFrom_snd (offset : UInt64) (sizes : List UInt64) :
    (spansFrom offset sizes).map Prod.snd = sizes := by
  induction sizes generalizing offset with
  | nil => rfl
  | cons s sizes ih => rw [spansFrom, List.map_cons, ih]

/-- Buffers one behind the other tile their place, when it is addressable. -/
theorem tiles_spansFrom {offset : UInt64} {sizes : List UInt64}
    (h : offset.toNat + totalBytes sizes < 2 ^ 64) :
    Tiles offset.toNat (spansFrom offset sizes) (endOf offset sizes).toNat := by
  induction sizes generalizing offset with
  | nil => rfl
  | cons s sizes ih =>
    simp only [totalBytes, List.map_cons, List.sum_cons] at h
    have hadd : (offset + s).toNat = offset.toNat + s.toNat := by
      rw [UInt64.toNat_add]
      omega
    refine ⟨rfl, ?_⟩
    rw [← hadd]
    exact ih (by rw [hadd, totalBytes]; omega)

/-! ## The offsets of the records -/

theorem leafRecords_fst (offset : UInt64) (lds : List LeafDesc) :
    (leafRecords offset lds).map Prod.fst = lds := by
  induction lds generalizing offset with
  | nil => rfl
  | cons ld lds ih => rw [leafRecords, List.map_cons, ih]

theorem leafRecords_spans (offset : UInt64) (lds : List LeafDesc) :
    (((leafRecords offset lds).map Prod.snd).zip lds).flatMap (fun l => l.1.zip l.2.sizes) =
      spansFrom offset (lds.flatMap LeafDesc.sizes) := by
  induction lds generalizing offset with
  | nil => rfl
  | cons ld lds ih =>
    rw [leafRecords, List.map_cons, List.zip_cons_cons, List.flatMap_cons, ih, List.flatMap_cons,
      spansFrom_append, LeafDesc.offsets, spansFrom_fst_zip]

theorem columnRecord_spans (offset : UInt64) (c : CompressedColumn × List LeafDesc) :
    (columnRecord offset c).spans = spansFrom offset (columnSizes c) := by
  rw [columnSizes, spansFrom_append, ColRecord.spans, columnRecord, leafRecords_fst,
    leafRecords_spans]
  congr 1
  simp only [ValiditySidecar.record, ValiditySidecar.sizes]
  cases c.1.tree.validity.kind <;> rfl

theorem tableSizes_cons (c : CompressedColumn × List LeafDesc)
    (cs : List (CompressedColumn × List LeafDesc)) :
    tableSizes (c :: cs) = columnSizes c ++ tableSizes cs :=
  List.flatMap_cons

theorem records_spans (offset : UInt64) (cs : List (CompressedColumn × List LeafDesc)) :
    (records offset cs).flatMap ColRecord.spans = spansFrom offset (tableSizes cs) := by
  induction cs generalizing offset with
  | nil => rfl
  | cons c cs ih =>
    rw [records, List.flatMap_cons, columnRecord_spans, ih, tableSizes_cons, spansFrom_append]

/-! ## Fields -/

theorem readU8_inverts (x : UInt8) : Inverts readU8 (pushU8 x) x := by
  have h := (readNat_inverts (w := 1) x.toNat_lt).map (f := UInt8.ofNat)
  rwa [UInt8.ofNat_toNat] at h

theorem readU16_inverts (x : UInt16) : Inverts readU16 (pushU16 x) x := by
  have h := (readNat_inverts (w := 2) x.toNat_lt).map (f := UInt16.ofNat)
  rwa [UInt16.ofNat_toNat] at h

theorem readU32_inverts (x : UInt32) : Inverts readU32 (pushU32 x) x := by
  have h := (readNat_inverts (w := 4) x.toNat_lt).map (f := UInt32.ofNat)
  rwa [UInt32.ofNat_toNat] at h

theorem readU64_inverts (x : UInt64) : Inverts readU64 (pushU64 x) x := by
  have h := (readNat_inverts (w := 8) x.toNat_lt).map (f := UInt64.ofNat)
  rwa [UInt64.ofNat_toNat] at h

theorem readI32_inverts (x : Int32) : Inverts readI32 (pushI32 x) x :=
  (readU32_inverts x.toUInt32).map

theorem readI64_inverts (x : Int64) : Inverts readI64 (pushI64 x) x :=
  (readU64_inverts x.toUInt64).map

theorem toNat_ofNat_length {n : ℕ} (h : n < 65536) : (UInt16.ofNat n).toNat = n := by
  rw [UInt16.toNat_ofNat']
  omega

theorem readStr16_inverts {s : Str} (h : StrFits s) : Inverts readStr16 (pushStr16 s) s := by
  refine (readU16_inverts _).bind ?_
  rw [toNat_ofNat_length h]
  exact readBytes_inverts s

theorem readStr16_yields : Yields readStr16 StrFits := by
  refine (Yields.true readU16).bind fun len _ => (readBytes_yields _).mono fun s hs => ?_
  rw [StrFits, hs]
  exact len.toNat_lt

theorem readMeta_inverts (m : LeafMeta) : Inverts readMeta (pushMeta m) m := by
  cases m with
  | none => exact (readU8_inverts 0).bind_pure rfl
  | alpRd rightBw => exact (readU8_inverts 1).bind (readU8_inverts rightBw).map
  | ans size type format =>
    exact (readU8_inverts 2).bind ((readU64_inverts size).bind ((readI32_inverts type).bind
      (readU8_inverts format).map))
  | bitcomp size type algorithm =>
    exact (readU8_inverts 3).bind ((readU64_inverts size).bind ((readI32_inverts type).bind
      (readI32_inverts algorithm).map))
  | nvcompCascaded size type numDeltas numRLEs useBp format =>
    exact (readU8_inverts 4).bind ((readU64_inverts size).bind ((readI32_inverts type).bind
      ((readI32_inverts numDeltas).bind ((readI32_inverts numRLEs).bind
        ((readI32_inverts useBp).bind (readU8_inverts format).map)))))
  | snappy size type =>
    exact (readU8_inverts 5).bind ((readU64_inverts size).bind (readI32_inverts type).map)
  | lz4 size type =>
    exact (readU8_inverts 6).bind ((readU64_inverts size).bind (readI32_inverts type).map)
  | deflate size type =>
    exact (readU8_inverts 7).bind ((readU64_inverts size).bind (readI32_inverts type).map)

/-! ## Plan nodes -/

theorem readRange_inverts (range : Option (UInt32 × UInt32)) :
    Inverts readRange (pushRange range) range := by
  cases range with
  | none => exact (readU8_inverts 0).bind_pure rfl
  | some range =>
    exact (readU8_inverts 1).bind ((readU32_inverts range.1).bind (readU32_inverts range.2).map)

theorem readInput_inverts {i : BitjoinInput} (h : StrFits i.channel) :
    Inverts readInput (pushInput i) i :=
  (readU32_inverts i.node).bind ((readStr16_inverts h).bind (readRange_inverts i.range).map)

theorem readBitjoin_inverts {bitjoin : Option BitjoinAttrs}
    (h : ∀ bj, bitjoin = some bj → bj.Fits) :
    Inverts readBitjoin (pushBitjoin bitjoin) bitjoin := by
  cases bitjoin with
  | none => exact (readU8_inverts 0).bind_pure rfl
  | some bj =>
    obtain ⟨hlength, hinputs, htype⟩ := h bj rfl
    refine (readU8_inverts 1).bind ((readU8_inverts _).bind ?_)
    have hread : Inverts (do
        let n ← readU16
        let inputs ← readN readInput n.toNat
        pure (some (BitjoinAttrs.mk inputs (tagToDtype (dtypeToTag bj.outputType)))))
        (pushU16 (UInt16.ofNat bj.inputs.length) ++ bj.inputs.flatMap pushInput)
        (some ⟨bj.inputs, tagToDtype (dtypeToTag bj.outputType)⟩) := by
      refine (readU16_inverts _).bind ?_
      rw [toNat_ofNat_length hlength]
      exact (Inverts.readN_self fun i hi => readInput_inverts (hinputs i hi)).map
    rw [htype] at hread ⊢
    exact hread

theorem readEdge_inverts {e : PlanEdge} (h : StrFits e.channel) :
    Inverts readEdge (pushEdge e) e :=
  (readStr16_inverts h).bind (readU32_inverts e.child).map

theorem readNode_inverts {node : PlanNode} (h : node.Fits) :
    Inverts readNode (pushNode node) node.stored := by
  obtain ⟨hop, hbitjoin, hchildren, hedges, hnames, houtputs⟩ := h
  refine (readStr16_inverts hop).bind ((readBitjoin_inverts hbitjoin).bind
    ((readU16_inverts _).bind ?_))
  rw [toNat_ofNat_length hchildren]
  refine (Inverts.readN_self fun e he => readEdge_inverts (hedges e he)).bind
    ((readU16_inverts _).bind ?_)
  rw [toNat_ofNat_length hnames]
  exact (Inverts.readN_self fun n hn => readStr16_inverts (houtputs n hn)).map
    (f := fun names => PlanNode.mk node.op node.bitjoin node.children names names none [])

theorem tag_stable (tag : UInt8) : tagToDtype (dtypeToTag (tagToDtype tag)) = tagToDtype tag := by
  have h : ∀ n < 256, tagToDtype (dtypeToTag (tagToDtype (UInt8.ofNat n))) =
      tagToDtype (UInt8.ofNat n) := by
    decide +kernel
  have htag := h tag.toNat tag.toNat_lt
  rwa [UInt8.ofNat_toNat] at htag

theorem readBitjoin_yields :
    Yields readBitjoin fun bitjoin => ∀ bj, bitjoin = some bj → bj.Fits := by
  have hinput : Yields readInput fun i => StrFits i.channel :=
    (Yields.true readU32).bind fun node _ => readStr16_yields.bind fun channel hchannel =>
      (Yields.true readRange).bind fun range _ => Yields.pure hchannel
  refine (Yields.true readU8).bind fun isBitjoin _ => Yields.ite
    (fun _ => Yields.pure (by simp)) fun _ => ?_
  refine (Yields.true readU8).bind fun outTag _ => (Yields.true readU16).bind fun n _ => ?_
  refine (hinput.readN n.toNat).bind fun inputs hinputs => Yields.pure ?_
  rintro bj ⟨rfl⟩
  exact ⟨by rw [hinputs.1]; exact n.toNat_lt, hinputs.2, tag_stable outTag⟩

theorem readNode_yields : Yields readNode PlanNode.Fits := by
  have hedge : Yields readEdge fun e => StrFits e.channel :=
    readStr16_yields.bind fun channel hchannel =>
      (Yields.true readU32).bind fun child _ => Yields.pure hchannel
  refine readStr16_yields.bind fun op hop => readBitjoin_yields.bind fun bitjoin hbitjoin => ?_
  refine (Yields.true readU16).bind fun ne _ => (hedge.readN ne.toNat).bind fun children hc => ?_
  refine (Yields.true readU16).bind fun no _ =>
    (readStr16_yields.readN no.toNat).bind fun names hnames => Yields.pure ?_
  exact ⟨hop, hbitjoin, by rw [hc.1]; exact ne.toNat_lt, hc.2,
    by rw [hnames.1]; exact no.toNat_lt, hnames.2⟩

/-! ## Whatever the bytes, the records fit -/

section Yields

variable {cudf : Cudf} {major : UInt8}

theorem check_yields (message : Option String) : Yields (check message) fun _ => message = none := by
  cases message with
  | none => exact Yields.pure rfl
  | some m => exact Yields.throw _

theorem readBuffer_yields : Yields (readBuffer cudf) fun b => StrFits b.1.name :=
  (readStr16_yields.orError _).bind fun _ hname =>
    (Yields.true _).bind fun _ _ => (Yields.true _).bind fun _ _ =>
      (Yields.true _).bind fun _ _ => (Yields.true _).bind fun _ _ => Yields.pure hname

theorem readLeaf_yields : Yields (readLeaf cudf major) fun l => l.1.Fits major := by
  refine (Yields.true _).bind fun nodeIndex _ => (Yields.true _).bind fun slot _ => ?_
  refine (Yields.true _).bind fun kind _ => (Yields.true _).bind fun typeTag _ => ?_
  refine (Yields.true _).bind fun numRows _ => (Yields.true _).bind fun metadata _ => ?_
  refine (check_yields _).bind fun _ hmeta => (Yields.true _).bind fun nb _ => ?_
  refine (readBuffer_yields.readN nb.toNat).bind fun buffers hbuffers => Yields.pure ?_
  refine ⟨hmeta, ?_, fun b hb => ?_⟩
  · rw [List.length_map, hbuffers.1]
    exact nb.toNat_lt
  · obtain ⟨e, he, rfl⟩ := List.mem_map.mp hb
    exact hbuffers.2 e he

theorem readColumn_yields : Yields (readColumn cudf major) fun r => r.Fits cudf major := by
  refine (readStr16_yields.orError _).bind fun name hname => (Yields.true _).bind fun tag _ => ?_
  refine (Yields.true _).bind fun scale _ => (Yields.true _).bind fun numRows _ => ?_
  refine (Yields.true _).bind fun validity _ => (check_yields _).bind fun _ hvalidity => ?_
  refine (Yields.true _).bind fun nn _ => ?_
  refine ((readNode_yields.orError _).readN nn.toNat).bind fun nodes hnodes => ?_
  refine (Yields.true _).bind fun nl _ => ?_
  refine (readLeaf_yields.readN nl.toNat).bind fun leaves hleaves => Yields.pure ?_
  refine ⟨hname, hvalidity, ?_, hnodes.2, ?_, fun l hl => ?_⟩
  · rw [hnodes.1]
    exact nn.toNat_lt
  · rw [List.length_map, hleaves.1]
    exact nl.toNat_lt
  · obtain ⟨e, he, rfl⟩ := List.mem_map.mp hl
    exact hleaves.2 e he

/-- **Whatever the bytes, the records a parse returns fit the format.** -/
theorem parse_fits : Yields (parseHplnHeader cudf major) fun rs =>
    rs.length < 65536 ∧ ∀ r ∈ rs, r.Fits cudf major := by
  refine (Yields.true _).bind fun m _ => (Yields.true _).bind fun _ _ => ?_
  refine (Yields.true _).bind fun ver _ => (Yields.true _).bind fun _ _ => ?_
  refine (Yields.true _).bind fun numCols _ => ?_
  refine (readColumn_yields.readN numCols.toNat).mono fun rs hrs => ⟨?_, hrs.2⟩
  rw [hrs.1]
  exact numCols.toNat_lt

end Yields

/-! ## The writer's steps -/

/-- The step from `w` to `w'` writes what `p` reads back as `a`. -/
def Emits {α : Type} (w w' : Writer) (p : Parser HplnError α) (a : α) : Prop :=
  ∃ bytes, w'.hdr = w.hdr ++ bytes ∧ Inverts p bytes a

theorem Emits.push {α : Type} {p : Parser HplnError α} {bytes : List UInt8} {a : α}
    (h : Inverts p bytes a) (w : Writer) : Emits w (w.push bytes) p a :=
  ⟨bytes, rfl, h⟩

theorem Emits.bind {α β : Type} {w w' w'' : Writer} {p : Parser HplnError α}
    {f : α → Parser HplnError β} {a : α} {b : β} (hp : Emits w w' p a)
    (hf : Emits w' w'' (f a) b) : Emits w w'' (p >>= f) b := by
  obtain ⟨as, has, hp⟩ := hp
  obtain ⟨bs, hbs, hf⟩ := hf
  exact ⟨as ++ bs, by rw [hbs, has, List.append_assoc], hp.bind hf⟩

theorem Emits.map {α β : Type} {w w' : Writer} {p : Parser HplnError α} {f : α → β} {a : α}
    (hp : Emits w w' p a) : Emits w w' (p >>= fun x => pure (f x)) (f a) := by
  obtain ⟨bytes, hbytes, hp⟩ := hp
  exact ⟨bytes, hbytes, hp.map⟩

/-- A check that passes reads nothing. -/
theorem check_none_bind {α : Type} (f : Unit → Parser HplnError α) :
    check none >>= f = f () := rfl

theorem pushValidity_offset (w : Writer) (v : ValiditySidecar) (ci : ℕ) :
    (pushValidity w v ci).payloadOffset = endOf w.payloadOffset v.sizes := by
  simp only [pushValidity, ValiditySidecar.sizes]
  cases v.kind <;> rfl

theorem readValidity_emits (w : Writer) (v : ValiditySidecar) (ci : ℕ) (e : HplnError) :
    Emits w (pushValidity w v ci) (orError e readValidity) (v.record w.payloadOffset) := by
  simp only [pushValidity, ValiditySidecar.record]
  cases v.kind with
  | allValid =>
    have hread : Inverts readValidity (pushU8 0) ⟨.allValid, 0, 0, 0⟩ :=
      (readU8_inverts 0).bind_pure rfl
    exact Emits.push (hread.orError e) w
  | allNull =>
    have hread : Inverts readValidity (pushU8 1 ++ pushI64 v.nullCount)
        ⟨.allNull, v.nullCount, 0, 0⟩ :=
      (readU8_inverts 1).bind ((readI64_inverts v.nullCount).bind_pure rfl)
    exact Emits.push (hread.orError e) w
  | mask =>
    have hread : Inverts readValidity (pushU8 2 ++ (pushI64 v.nullCount ++
        (pushU64 v.maskSize ++ pushU64 w.payloadOffset)))
        ⟨.mask, v.nullCount, v.maskSize, w.payloadOffset⟩ :=
      (readU8_inverts 2).bind ((readI64_inverts v.nullCount).bind
        ((readU64_inverts v.maskSize).bind ((readU64_inverts w.payloadOffset).bind_pure rfl)))
    exact ⟨_, rfl, hread.orError e⟩

/-! ### Buffers

The parser derives a buffer's elements from its bytes; the writer's own descriptions
agree with that. -/

/-- The elements of a described buffer are its bytes by the width of its type. -/
def RowsAgree (cudf : Cudf) (bd : LeafBufferDesc) : Prop :=
  bufferRows cudf bd.typeTag bd.sizeBytes = pure bd.numRows

theorem tag_id {dt : DataType} (h : dtypeToTag dt ≠ 255) :
    dtypeToTag dt < 255 ∧ (tagToDtype (dtypeToTag dt)).id = dt.id := by
  have hid : ∀ id : TypeId, dtypeToTag ⟨id, 0⟩ ≠ 255 →
      dtypeToTag ⟨id, 0⟩ < 255 ∧ (tagToDtype (dtypeToTag ⟨id, 0⟩)).id = id := by
    intro id
    cases id <;> decide
  exact hid dt.id h

theorem bufferDesc_rows {cudf : Cudf} {ch : NamedChannel} {bd : LeafBufferDesc}
    (h : bufferDesc cudf ch = .ok bd) (htag : bd.typeTag ≠ 255) : RowsAgree cudf bd := by
  unfold bufferDesc at h
  cases hwidth : cudf.sizeOf ch.type.id with
  | none => rw [hwidth] at h; cases h
  | some width =>
    rw [hwidth] at h
    obtain ⟨rfl⟩ := h
    obtain ⟨hlt, hid⟩ := tag_id htag
    have hpos := cudf.sizeOf_pos _ _ hwidth
    have hle := cudf.sizeOf_le _ _ hwidth
    have hsize := ch.size_lt
    have hwidthNat : (UInt64.ofNat width).toNat = width := by
      rw [UInt64.toNat_ofNat']
      omega
    have hsizeNat : (UInt64.ofNat ch.size).toNat = ch.size := by
      rw [UInt64.toNat_ofNat']
      omega
    have hbytes : (UInt64.ofNat ch.size * UInt64.ofNat width).toNat = ch.size * width := by
      have hprod : ch.size * width ≤ ch.size * 16 := Nat.mul_le_mul_left _ hle
      rw [UInt64.toNat_mul, hwidthNat, hsizeNat]
      omega
    simp only [RowsAgree, bufferRows]
    split_ifs with hcase
    · have hdiv : UInt64.ofNat ch.size * UInt64.ofNat width / UInt64.ofNat width =
          UInt64.ofNat ch.size := by
        apply UInt64.toNat_inj.mp
        rw [UInt64.toNat_div, hbytes, hwidthNat, hsizeNat, Nat.mul_div_cancel _ hpos]
      rw [hid, hwidth]
      simp only [hdiv]
    · congr 1
      apply UInt64.toNat_inj.mp
      have hzero : ¬0 < UInt64.ofNat ch.size * UInt64.ofNat width := fun hp => hcase ⟨hp, hlt⟩
      rw [UInt64.lt_iff_toNat_lt, hbytes] at hzero
      have hsizeZero : ch.size = 0 := by
        rcases Nat.eq_zero_or_pos ch.size with hz | hz
        · exact hz
        · exact absurd (Nat.mul_pos hz hpos) hzero
      rw [hsizeNat, hsizeZero]
      rfl

section Writes

variable {cudf : Cudf} {major : UInt8} {ci : ℕ} {w w' : Writer}

theorem writeBuffer_ok {bd : LeafBufferDesc} (h : writeBuffer cudf ci w bd = .ok w') :
    bd.typeTag ≠ 255 ∧ w'.payloadOffset = w.payloadOffset + bd.sizeBytes ∧
      w'.hdr = w.hdr ++ (pushStr16 bd.name ++ (pushU8 bd.typeTag ++
        (pushU64 bd.sizeBytes ++ pushU64 w.payloadOffset))) := by
  rw [writeBuffer, ite_error_eq_ok, bind_eq_ok] at h
  obtain ⟨htag, alloc, -, h⟩ := h
  obtain ⟨rfl⟩ := h
  exact ⟨htag, rfl, rfl⟩

theorem writeBuffers_offset {bs : List LeafBufferDesc}
    (h : bs.foldlM (writeBuffer cudf ci) w = .ok w') :
    w'.payloadOffset = endOf w.payloadOffset (bs.map LeafBufferDesc.sizeBytes) ∧
      ∀ b ∈ bs, b.typeTag ≠ 255 := by
  induction bs generalizing w with
  | nil =>
    obtain ⟨rfl⟩ := h
    exact ⟨rfl, by simp⟩
  | cons b bs ih =>
    rw [List.foldlM_cons, bind_eq_ok] at h
    obtain ⟨v, hv, h⟩ := h
    obtain ⟨htag, hoffset, -⟩ := writeBuffer_ok hv
    obtain ⟨hend, htags⟩ := ih h
    refine ⟨by rw [hend, hoffset]; rfl, fun c hc => ?_⟩
    rcases List.mem_cons.mp hc with rfl | hc
    · exact htag
    · exact htags c hc

theorem readBuffers_emits {bs : List LeafBufferDesc} (hnames : ∀ b ∈ bs, StrFits b.name)
    (hrows : ∀ b ∈ bs, RowsAgree cudf b) (h : bs.foldlM (writeBuffer cudf ci) w = .ok w') :
    Emits w w' (readN (readBuffer cudf) bs.length)
      (bs.zip ((spansFrom w.payloadOffset (bs.map LeafBufferDesc.sizeBytes)).map Prod.fst)) := by
  induction bs generalizing w with
  | nil =>
    obtain ⟨rfl⟩ := h
    exact ⟨[], (List.append_nil _).symm, Inverts.pure _⟩
  | cons b bs ih =>
    rw [List.foldlM_cons, bind_eq_ok] at h
    obtain ⟨v, hv, h⟩ := h
    obtain ⟨-, hoffset, hhdr⟩ := writeBuffer_ok hv
    have hread : Emits w v (readBuffer cudf) (b, w.payloadOffset) := by
      refine ⟨_, hhdr, ?_⟩
      refine ((readStr16_inverts (hnames b List.mem_cons_self)).orError _).bind
        (((readU8_inverts _).orError _).bind (((readU64_inverts _).orError _).bind
          (((readU64_inverts _).orError _).bind_pure ?_)))
      rw [hrows b List.mem_cons_self, pure_bind]
    have hrest := ih (fun c hc => hnames c (List.mem_cons_of_mem b hc))
      (fun c hc => hrows c (List.mem_cons_of_mem b hc)) h
    rw [hoffset] at hrest
    exact hread.bind hrest.map

/-! ### Leaves -/

theorem writeLeaf_ok {ld : LeafDesc} (h : writeLeaf cudf ci w ld = .ok w') :
    ld.buffers.foldlM (writeBuffer cudf ci) (w.push (pushLeaf ld)) = .ok w' := by
  rw [writeLeaf, ite_error_eq_ok] at h
  exact h.2

theorem writeLeaf_offset {ld : LeafDesc} (h : writeLeaf cudf ci w ld = .ok w') :
    w'.payloadOffset = endOf w.payloadOffset ld.sizes :=
  (writeBuffers_offset (writeLeaf_ok h)).1

theorem length_offsets (ld : LeafDesc) (offset : UInt64) :
    (ld.offsets offset).length = ld.buffers.length := by
  rw [LeafDesc.offsets, List.length_map, ← List.length_map (f := Prod.snd), spansFrom_snd,
    LeafDesc.sizes, List.length_map]

theorem readLeaf_emits {ld : LeafDesc} (hfits : ld.Fits major)
    (hrows : ∀ b ∈ ld.buffers, RowsAgree cudf b) (h : writeLeaf cudf ci w ld = .ok w') :
    Emits w w' (readLeaf cudf major) (ld, ld.offsets w.payloadOffset) := by
  obtain ⟨hmeta, hlength, hnames⟩ := hfits
  obtain ⟨bytes, hhdr, hbuffers⟩ := readBuffers_emits hnames hrows (writeLeaf_ok h)
  refine ⟨pushLeaf ld ++ bytes, by rw [hhdr, Writer.push, List.append_assoc], ?_⟩
  have hcount : (UInt8.ofNat ld.buffers.length).toNat = ld.buffers.length := by
    rw [UInt8.toNat_ofNat']
    omega
  have hlen := length_offsets ld w.payloadOffset
  rw [pushLeaf]
  simp only [List.append_assoc]
  refine ((readU32_inverts _).orError _).bind (((readI32_inverts _).orError _).bind
    (((readU8_inverts _).orError _).bind (((readU8_inverts _).orError _).bind
      (((readU64_inverts _).orError _).bind (((readMeta_inverts _).orError _).bind ?_)))))
  rw [hmeta, check_none_bind]
  refine ((readU8_inverts _).orError _).bind ?_
  rw [hcount]
  refine hbuffers.bind_pure ?_
  have hfst : (ld.buffers.zip (ld.offsets w.payloadOffset)).map Prod.fst = ld.buffers :=
    List.map_fst_zip hlen.ge
  have hsnd : (ld.buffers.zip (ld.offsets w.payloadOffset)).map Prod.snd =
      ld.offsets w.payloadOffset := List.map_snd_zip hlen.le
  have hoffsets : (spansFrom (w.push (pushLeaf ld)).payloadOffset
      (ld.buffers.map LeafBufferDesc.sizeBytes)).map Prod.fst = ld.offsets w.payloadOffset := rfl
  rw [hoffsets, hfst, hsnd]

theorem writeLeaves_offset {lds : List LeafDesc}
    (h : lds.foldlM (writeLeaf cudf ci) w = .ok w') :
    w'.payloadOffset = endOf w.payloadOffset (lds.flatMap LeafDesc.sizes) := by
  induction lds generalizing w with
  | nil =>
    obtain ⟨rfl⟩ := h
    rfl
  | cons ld lds ih =>
    rw [List.foldlM_cons, bind_eq_ok] at h
    obtain ⟨v, hv, h⟩ := h
    rw [ih h, writeLeaf_offset hv, List.flatMap_cons, endOf_append]

theorem readLeaves_emits {lds : List LeafDesc} (hfits : ∀ l ∈ lds, l.Fits major)
    (hrows : ∀ l ∈ lds, ∀ b ∈ l.buffers, b.typeTag ≠ 255 → RowsAgree cudf b)
    (h : lds.foldlM (writeLeaf cudf ci) w = .ok w') :
    Emits w w' (readN (readLeaf cudf major) lds.length) (leafRecords w.payloadOffset lds) := by
  induction lds generalizing w with
  | nil =>
    obtain ⟨rfl⟩ := h
    exact ⟨[], (List.append_nil _).symm, Inverts.pure _⟩
  | cons ld lds ih =>
    rw [List.foldlM_cons, bind_eq_ok] at h
    obtain ⟨v, hv, h⟩ := h
    have htags := (writeBuffers_offset (writeLeaf_ok hv)).2
    have hleaf := readLeaf_emits (hfits ld List.mem_cons_self)
      (fun b hb => hrows ld List.mem_cons_self b hb (htags b hb)) hv
    have hrest := ih (fun l hl => hfits l (List.mem_cons_of_mem ld hl))
      (fun l hl => hrows l (List.mem_cons_of_mem ld hl)) h
    rw [writeLeaf_offset hv] at hrest
    exact hleaf.bind hrest.map

/-! ### Columns -/

theorem validityError_record (numRows : Int64) (v : ValiditySidecar) (offset : UInt64) :
    validityError cudf numRows (v.record offset) = validityError cudf numRows (v.record 0) := by
  obtain ⟨kind, nullCount, maskSize⟩ := v
  cases kind <;> rfl

variable {c : CompressedColumn × List LeafDesc}

theorem writeColumn_ok (h : writeColumn cudf ci w c.1 c.2 = .ok w') :
    c.2.foldlM (writeLeaf cudf ci)
      ((pushValidity (w.push (pushColumn c.1)) c.1.tree.validity ci).push
        (pushTree c.1.tree c.2.length)) = .ok w' := by
  rw [writeColumn, ite_error_eq_ok] at h
  exact h.2

theorem writeColumn_offset (h : writeColumn cudf ci w c.1 c.2 = .ok w') :
    w'.payloadOffset = endOf w.payloadOffset (columnSizes c) := by
  have hend := writeLeaves_offset (writeColumn_ok h)
  have hmask := pushValidity_offset (w.push (pushColumn c.1)) c.1.tree.validity ci
  rw [hend, columnSizes, endOf_append]
  exact congrArg (endOf · _) hmask

/-- One column of the header reads back as its record. -/
theorem readColumn_emits (hfits : ColumnFits cudf major c)
    (hrows : ∀ l ∈ c.2, ∀ b ∈ l.buffers, b.typeTag ≠ 255 → RowsAgree cudf b)
    (h : writeColumn cudf ci w c.1 c.2 = .ok w') :
    Emits w w' (readColumn cudf major) (columnRecord w.payloadOffset c) := by
  have hleaves := readLeaves_emits hfits.leaves hrows (writeColumn_ok h)
  have hmask := pushValidity_offset (w.push (pushColumn c.1)) c.1.tree.validity ci
  obtain ⟨leafBytes, hhdr, hleaves⟩ := hleaves
  obtain ⟨validityBytes, hvhdr, hvalidity⟩ := readValidity_emits (w.push (pushColumn c.1))
    c.1.tree.validity ci (.bad "truncated/unknown col validity")
  refine ⟨pushColumn c.1 ++ (validityBytes ++ (pushTree c.1.tree c.2.length ++ leafBytes)), ?_, ?_⟩
  · rw [hhdr]
    simp only [Writer.push] at hvhdr ⊢
    rw [hvhdr]
    simp only [List.append_assoc]
  · have herror : validityError cudf c.1.numRows (c.1.tree.validity.record w.payloadOffset) =
        none := by
      rw [validityError_record, hfits.validity]
    rw [pushColumn, pushTree]
    simp only [List.append_assoc]
    refine ((readStr16_inverts hfits.name).orError _).bind (((readU8_inverts _).orError _).bind
      (((readI32_inverts _).orError _).bind (((readI64_inverts _).orError _).bind
        (hvalidity.bind ?_))))
    have hpush : (w.push (pushColumn c.1)).payloadOffset = w.payloadOffset := rfl
    rw [hpush, herror, check_none_bind]
    refine ((readU16_inverts _).orError _).bind ?_
    rw [toNat_ofNat_length hfits.nodes_length]
    refine (Inverts.readN fun n hn => (readNode_inverts (hfits.nodes n hn)).orError _).bind
      (((readU16_inverts _).orError _).bind ?_)
    rw [toNat_ofNat_length hfits.leaves_length]
    refine hleaves.bind_pure ?_
    have hoffset : ((pushValidity (w.push (pushColumn c.1)) c.1.tree.validity ci).push
        (pushTree c.1.tree c.2.length)).payloadOffset =
          endOf w.payloadOffset c.1.tree.validity.sizes := hmask
    rw [hoffset]
    rfl

theorem writeColumns_offset {cs : List (CompressedColumn × List LeafDesc)}
    (h : writeColumns cudf ci w cs = .ok w') :
    w'.payloadOffset = endOf w.payloadOffset (tableSizes cs) := by
  induction cs generalizing ci w with
  | nil =>
    obtain ⟨rfl⟩ := h
    rfl
  | cons c cs ih =>
    rw [writeColumns, bind_eq_ok] at h
    obtain ⟨v, hv, h⟩ := h
    rw [ih h, writeColumn_offset hv, tableSizes_cons, endOf_append]

theorem readColumns_emits {cs : List (CompressedColumn × List LeafDesc)}
    (hfits : ∀ c ∈ cs, ColumnFits cudf major c)
    (hrows : ∀ c ∈ cs, ∀ l ∈ c.2, ∀ b ∈ l.buffers, b.typeTag ≠ 255 → RowsAgree cudf b)
    (h : writeColumns cudf ci w cs = .ok w') :
    Emits w w' (readN (readColumn cudf major) cs.length) (records w.payloadOffset cs) := by
  induction cs generalizing ci w with
  | nil =>
    obtain ⟨rfl⟩ := h
    exact ⟨[], (List.append_nil _).symm, Inverts.pure _⟩
  | cons c cs ih =>
    rw [writeColumns, bind_eq_ok] at h
    obtain ⟨v, hv, h⟩ := h
    have hcolumn := readColumn_emits (hfits c List.mem_cons_self) (hrows c List.mem_cons_self) hv
    have hrest := ih (fun d hd => hfits d (List.mem_cons_of_mem c hd))
      (fun d hd => hrows d (List.mem_cons_of_mem c hd)) h
    rw [writeColumn_offset hv] at hrest
    exact hcolumn.bind hrest.map

end Writes

/-! ## The header -/

/-- The descriptions of a table agree with what the parser derives. -/
theorem describe_rows {cudf : Cudf} {columns : List CompressedColumn}
    {allDescs : List (List LeafDesc)} (h : columns.mapM (describeColumn cudf) = .ok allDescs) :
    ∀ c ∈ columns.zip allDescs, ∀ l ∈ c.2, ∀ b ∈ l.buffers, b.typeTag ≠ 255 →
      RowsAgree cudf b := by
  intro c hc l hl b hb htag
  obtain ⟨col, -, hdescs⟩ := exists_of_mapM_eq_ok h c.2 (List.of_mem_zip hc).2
  unfold describeColumn at hdescs
  cases htree : col.planTree with
  | none =>
    rw [htree] at hdescs
    rw [← Except.ok.inj hdescs] at hl
    cases hl
  | some tree =>
    rw [htree] at hdescs
    simp only [bind_eq_ok] at hdescs
    obtain ⟨leaves, hleaves, hflat⟩ := hdescs
    rw [← Except.ok.inj hflat] at hl
    obtain ⟨ls, hls, hl⟩ := List.mem_flatten.mp hl
    obtain ⟨n, -, hslots⟩ := exists_of_mapM_eq_ok hleaves ls hls
    obtain ⟨s, -, hleaf⟩ := exists_of_mapM_eq_ok hslots l hl
    rw [makeLeafDesc, bind_eq_ok] at hleaf
    obtain ⟨buffers, hbuffers, ⟨rfl⟩⟩ := hleaf
    obtain ⟨ch, -, hch⟩ := exists_of_mapM_eq_ok hbuffers b hb
    exact bufferDesc_rows hch htag

theorem records_length (offset : UInt64) (cs : List (CompressedColumn × List LeafDesc)) :
    (records offset cs).length = cs.length := by
  induction cs generalizing offset with
  | nil => rfl
  | cons c cs ih => rw [records, List.length_cons, ih, List.length_cons]

/-- A column fits when its record does. -/
theorem columnFits_of_record {cudf : Cudf} {major : UInt8} {offset : UInt64}
    {c : CompressedColumn × List LeafDesc} (h : (columnRecord offset c).Fits cudf major) :
    ColumnFits cudf major c := by
  have hleaves : (columnRecord offset c).leafDescs = c.2 := leafRecords_fst _ _
  refine ⟨h.name, ?_, ?_, fun n hn => ?_, ?_, fun l hl => ?_⟩
  · rw [← validityError_record c.1.numRows c.1.tree.validity offset]
    exact h.validity
  · have hlength := h.nodes_length
    rwa [columnRecord, List.length_map] at hlength
  · exact h.nodes n.stored (List.mem_map_of_mem hn)
  · have hlength := h.leaves_length
    rwa [hleaves] at hlength
  · exact h.leaves l (hleaves ▸ hl)

theorem columnsFit_of_records {cudf : Cudf} {major : UInt8} {offset : UInt64}
    {cs : List (CompressedColumn × List LeafDesc)}
    (h : ∀ r ∈ records offset cs, r.Fits cudf major) : ∀ c ∈ cs, ColumnFits cudf major c := by
  induction cs generalizing offset with
  | nil => simp
  | cons c cs ih =>
    intro d hd
    rcases List.mem_cons.mp hd with rfl | hd
    · exact columnFits_of_record (h _ List.mem_cons_self)
    · exact ih (fun r hr => h r (List.mem_cons_of_mem _ hr)) d hd

theorem parseHplnHeader_emits {cudf : Cudf} {major : UInt8}
    {cs : List (CompressedColumn × List LeafDesc)} (hfits : TableFits cudf major cs)
    (hrows : ∀ c ∈ cs, ∀ l ∈ c.2, ∀ b ∈ l.buffers, b.typeTag ≠ 255 → RowsAgree cudf b)
    {w : Writer} (h : writeColumns cudf 0
      ⟨magic ++ (pushU8 version ++ pushU16 (UInt16.ofNat cs.length)), [], 0⟩ cs = .ok w) :
    Inverts (parseHplnHeader cudf major) w.hdr (records 0 cs) := by
  obtain ⟨bytes, hhdr, hcolumns⟩ := readColumns_emits hfits.columns hrows h
  have hmagic : Inverts (readBytes 4) magic magic := readBytes_inverts magic
  rw [hhdr]
  simp only [List.append_assoc]
  refine (hmagic.orError _).bind ?_
  rw [if_neg (by simp), check_none_bind]
  refine ((readU8_inverts version).orError _).bind ?_
  rw [if_neg (by simp), check_none_bind]
  refine ((readU16_inverts _).orError _).bind ?_
  rw [toNat_ofNat_length hfits.length]
  exact hcolumns

/-- **The header reads back, and its offsets tile the payload, if and only if the table
fits the format.** For every table whose header is built: the parser recovers every record
field for field and the recorded offsets cover `[0, payload_bytes)` in order and without a
gap exactly when every count and string fits its field, the metadata and validity pass the
parser's checks, and the buffers add up to less than `2^64` bytes. -/
theorem header_roundtrip (cudf : Cudf) (major : UInt8) (columns : List CompressedColumn)
    (allDescs : List (List LeafDesc)) (w : Writer)
    (hdescs : columns.mapM (describeColumn cudf) = .ok allDescs)
    (hbuild : buildCompressedTableHeader cudf columns = .ok w) :
    ((parseHplnHeader cudf major).run w.hdr = .ok (records 0 (columns.zip allDescs), []) ∧
        Tiles 0 ((records 0 (columns.zip allDescs)).flatMap ColRecord.spans)
          w.payloadOffset.toNat) ↔
      TableFits cudf major (columns.zip allDescs) := by
  have hlength : (columns.zip allDescs).length = columns.length := by
    rw [List.length_zip, ← length_of_mapM_eq_ok hdescs, Nat.min_self]
  have hwrite : writeColumns cudf 0
      ⟨magic ++ (pushU8 version ++ pushU16 (UInt16.ofNat (columns.zip allDescs).length)), [], 0⟩
      (columns.zip allDescs) = .ok w := by
    rw [buildCompressedTableHeader, hdescs, ok_bind] at hbuild
    rwa [hlength]
  have hrows := describe_rows hdescs
  generalize columns.zip allDescs = cs at *
  have hend : w.payloadOffset = endOf 0 (tableSizes cs) := writeColumns_offset hwrite
  constructor
  · rintro ⟨hparse, htiles⟩
    obtain ⟨hcount, hfits⟩ := parse_fits _ _ _ hparse
    rw [records_length] at hcount
    refine ⟨hcount, columnsFit_of_records hfits, ?_⟩
    have hsum := tiles_sum htiles
    rw [records_spans, spansFrom_snd, Nat.zero_add] at hsum
    rw [← hsum]
    exact w.payloadOffset.toNat_lt
  · intro hfits
    constructor
    · have hinverts := parseHplnHeader_emits hfits hrows hwrite []
      rwa [List.append_nil] at hinverts
    · rw [records_spans, hend]
      have hzero : (0 : UInt64).toNat = 0 := rfl
      have hroom : (0 : UInt64).toNat + totalBytes (tableSizes cs) < 2 ^ 64 := by
        rw [hzero, Nat.zero_add]
        exact hfits.payload
      exact tiles_spansFrom hroom

/-! ## Instances -/

/-- The widths of cuDF's fixed-width types. -/
def standardWidth : TypeId → Option ℕ
  | .int8 | .uint8 | .bool8 => some 1
  | .int16 | .uint16 => some 2
  | .int32 | .uint32 | .float32 | .decimal32 | .timestampDays | .durationDays => some 4
  | .int64 | .uint64 | .float64 | .decimal64 => some 8
  | .timestampSeconds | .timestampMilliseconds | .timestampMicroseconds
  | .timestampNanoseconds => some 8
  | .durationSeconds | .durationMilliseconds | .durationMicroseconds
  | .durationNanoseconds => some 8
  | .decimal128 => some 16
  | .empty | .dictionary32 | .string | .list | .struct => none

theorem standardWidth_bounds {id : TypeId} {w : ℕ} (h : standardWidth id = some w) :
    0 < w ∧ w ≤ 16 := by
  cases id <;> simp only [standardWidth, Option.some.injEq, reduceCtorEq] at h <;> omega

/-- cuDF as documented. -/
def standardCudf : Cudf where
  sizeOf := standardWidth
  numBitmaskWords n := Int32.ofInt ((n.toInt + 31) / 32)
  sizeOf_empty := rfl
  sizeOf_pos _ _ h := (standardWidth_bounds h).1
  sizeOf_le _ _ h := (standardWidth_bounds h).2
  words_eq := by
    intro n hn
    have hlt := n.toInt_lt
    rw [Int32.le_iff_toInt_le, Int32.toInt_zero] at hn
    exact Int32.toInt_ofInt_of_le (by omega) (by omega)

/-- Two rows under one identity leaf, with a validity mask. -/
def smallColumn : CompressedColumn where
  name := some [97]
  dtype := ⟨.int32, 0⟩
  numRows := 2
  planTree := some
    { nodes := [
        { op := [105, 100], bitjoin := none, children := [], outputNames := [[100]]
          outputPaths := [[100]], rep := none
          channels := [([100],
            { kind := ⟨5⟩, decodedType := ⟨.int32, 0⟩, numRows := 2, metadata := .none
              namedChannels := [⟨[100], ⟨.int32, 0⟩, 2, by norm_num⟩] })] }]
      validity := ⟨.mask, 1, 4⟩ }

/-- Its leaf. -/
def smallLeaf : LeafDesc := ⟨0, 0, ⟨5⟩, 2, 2, .none, [⟨[100], 2, 2, 8⟩]⟩

theorem header_roundtrip_small :
    ∃ w, buildCompressedTableHeader standardCudf [smallColumn] = .ok w ∧
      (parseHplnHeader standardCudf 5).run w.hdr =
        .ok (records 0 [(smallColumn, [smallLeaf])], []) ∧
      Tiles 0 ((records 0 [(smallColumn, [smallLeaf])]).flatMap ColRecord.spans)
        w.payloadOffset.toNat := by
  obtain ⟨w, hw⟩ : ∃ w, buildCompressedTableHeader standardCudf [smallColumn] = .ok w := ⟨_, rfl⟩
  have hfits : TableFits standardCudf 5 [(smallColumn, [smallLeaf])] := by
    refine ⟨by decide, fun c hc => ?_, by decide⟩
    obtain rfl := List.mem_singleton.mp hc
    refine ⟨by decide, by decide +kernel, by decide, fun n hn => ?_, by decide, fun l hl => ?_⟩
    · obtain rfl := List.mem_singleton.mp hn
      simp [PlanNode.Fits, StrFits]
    · obtain rfl := List.mem_singleton.mp hl
      simp [LeafDesc.Fits, StrFits, smallLeaf, metaError, LeafMeta.payloadFormat?]
  exact ⟨w, hw, (header_roundtrip standardCudf 5 [smallColumn] [[smallLeaf]] w rfl hw).mpr hfits⟩

/-- A column without a plan. -/
def bareColumn (name : Str) : CompressedColumn := ⟨some name, ⟨.int8, 0⟩, 0, none⟩

theorem build_bareColumn (name : Str) :
    ∃ w, buildCompressedTableHeader standardCudf [bareColumn name] = .ok w := ⟨_, rfl⟩

/-- A column name of 65536 bytes is written with the length `0`: the header is built, and
no parse of it returns the record. -/
theorem header_long_name :
    ∃ w, buildCompressedTableHeader standardCudf [bareColumn (List.replicate 65536 97)] = .ok w ∧
      (parseHplnHeader standardCudf 5).run w.hdr ≠
        .ok (records 0 [(bareColumn (List.replicate 65536 97), [])], []) := by
  obtain ⟨w, hw⟩ := build_bareColumn (List.replicate 65536 97)
  refine ⟨w, hw, fun hparse => ?_⟩
  have hfits := (parse_fits _ _ _ hparse).2 _ List.mem_cons_self
  have hname : (List.replicate 65536 (97 : UInt8)).length < 65536 := hfits.name
  rw [List.length_replicate] at hname
  exact absurd hname (lt_irrefl _)

end Sirius.Compression.Hpln
