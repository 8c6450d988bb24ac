import Sirius.Common.Checked
import Sirius.Common.Coalescing

/-!
# The coalescer of native scans

Model of `duckdb_native_batch_coalescer` (src/op/scan/duckdb_native_gpu_ingestible.cpp:64-214),
which packs the row groups of scan infos into splits. A call of `advance` looks at no more row
groups than its quantum and emits at most one split; the caller goes on with the same input until it
is finished. Sizes are `size_t` and wrap. The columns of a row group, the certificates and the
proofs of the dependencies are of any type.

* `Coalescer`, `advance`, `partialEmit`, `flush`: the coalescer.
* `Driver`: the inputs in order and the calls in any.
* `Held`: what the coalescer has accumulated.
* `native_splits`: the splits of a run hold the row groups that have rows, in order.
-/

namespace Sirius.Scan.Native

open Sirius.Common
open Sirius.Common.Coalescing

/-! ## The coalescer -/

/-- The sum of two `size_t`. -/
def addSize (a b : ℕ) : ℕ := (a + b) % 2 ^ 64

/-- `kCudfInt32StringsThreshold`. -/
def cudfInt32StringsThreshold : ℕ := 2 ^ 31 - 1

/-- `duckdb_row_group_metadata`. -/
structure RowGroup (X : Type) where
  rowGroupIndex : ℕ
  rowGroupStart : ℕ
  rowCount : ℕ
  columns : X
  decodedBytesBudget : ℕ
  varcharBytesPerCol : List ℕ
  deriving DecidableEq, Repr

/-- `varchar_bytes_per_col[c]`. -/
def RowGroup.varchar {X : Type} (rg : RowGroup X) (c : ℕ) : ℕ := rg.varcharBytesPerCol.getD c 0

/-- `split_dependencies`: a physical proof, and the source that it is bound to. -/
structure Dependency (P S : Type) where
  datasource : Option S
  proof : P
  deriving DecidableEq, Repr

/-- `duckdb_native_scan_info`, as an input and as a split. -/
structure ScanInfo (X C P S : Type) where
  rowGroups : List (RowGroup X)
  certificates : List C
  dependencies : List (Dependency P S)
  datasource : Option S
  blockManager : ℕ
  contractId : ℕ
  deriving DecidableEq, Repr

/-- The constants of a coalescer, and what it uses of a source and of a certificate: the object that
    the source reads, its `duplicate()`, and the contract of the certificate. -/
structure Config (C S : Type) where
  cap : ℕ
  isVarchar : List Bool
  ioObject : S → ℕ
  duplicate : S → S
  contractOf : C → ℕ

/-- `_any_varchar`. -/
def Config.anyVarchar {C S : Type} (cfg : Config C S) : Bool := cfg.isVarchar.any id

/-- `_datasource`, `_block_manager` and `_contract_id`. -/
structure Template (S : Type) where
  datasource : Option S
  blockManager : ℕ
  contractId : ℕ
  deriving DecidableEq, Repr

/-- The members of the coalescer. `template` is there when `_have_template` is set. -/
structure Coalescer (X C P S : Type) where
  colBytes : List ℕ
  acc : List (RowGroup X) := []
  certificates : List C := []
  dependencies : List (Dependency P S) := []
  accBytes : ℕ := 0
  template : Option (Template S) := none
  producedAny : Bool := false

variable {X C P S : Type}

/-- A new coalescer. -/
def Coalescer.start (cfg : Config C S) : Coalescer X C P S :=
  { colBytes := List.replicate cfg.isVarchar.length 0 }

/-- A split of the template. -/
def Template.split (cfg : Config C S) (t : Option (Template S)) (rowGroups : List (RowGroup X))
    (certificates : List C) (dependencies : List (Dependency P S)) : ScanInfo X C P S :=
  { rowGroups := rowGroups
    certificates := certificates
    dependencies := dependencies
    datasource := t.bind fun t => t.datasource.map cfg.duplicate
    blockManager := (t.map Template.blockManager).getD 0
    contractId := (t.map Template.contractId).getD 0 }

/-- `emit_current()` (lines 179–192). -/
def Coalescer.emitCurrent (cfg : Config C S) (st : Coalescer X C P S) :
    ScanInfo X C P S × Coalescer X C P S :=
  (Template.split cfg st.template st.acc st.certificates st.dependencies,
    { st with
      acc := []
      certificates := []
      dependencies := []
      accBytes := 0
      colBytes := List.replicate st.colBytes.length 0
      producedAny := true })

/-- What `set_contract_payload` throws on a split (gpu_ingestible_types.hpp:262-277). -/
def ScanInfo.payloadError (cfg : Config C S) (split : ScanInfo X C P S) : Option String :=
  if split.certificates.length ≠ split.dependencies.length then
    some "split certificates and dependencies must be parallel"
  else if split.certificates.any fun c => cfg.contractOf c ≠ split.contractId then
    some "split certificate contract does not match split contract"
  else none

/-- The result of a call that has built a split or none. -/
def settle {α : Type} (cfg : Config C S) (split : Option (ScanInfo X C P S)) (a : α) :
    Except String α :=
  match split.bind (ScanInfo.payloadError cfg) with
  | some e => .error e
  | none => .ok a

/-- `partial_emit()` (lines 92–96). -/
def Coalescer.partialEmit (cfg : Config C S) (st : Coalescer X C P S) :
    Except String (Option (ScanInfo X C P S) × Coalescer X C P S) :=
  if st.acc.isEmpty then .ok (none, st)
  else
    settle cfg (some (st.emitCurrent cfg).1)
      (some (st.emitCurrent cfg).1, (st.emitCurrent cfg).2)

/-- A row group with its certificate and its dependency. -/
structure Item (X C P S : Type) where
  rowGroup : RowGroup X
  certificate : C
  dependency : Dependency P S
  deriving DecidableEq, Repr

/-- The row groups of an input, each with what is at its index. -/
def ScanInfo.items (info : ScanInfo X C P S) : List (Item X C P S) :=
  (info.rowGroups.zip (info.certificates.zip info.dependencies)).map fun p =>
    { rowGroup := p.1, certificate := p.2.1, dependency := p.2.2 }

/-- `exceed_total || exceed_varchar` (lines 125–138). -/
def Coalescer.exceeds (cfg : Config C S) (st : Coalescer X C P S) (rg : RowGroup X) : Bool :=
  (decide (0 < cfg.cap) && decide (addSize st.accBytes rg.decodedBytesBudget > cfg.cap)) ||
    (cfg.anyVarchar && (List.range cfg.isVarchar.length).any fun c =>
      cfg.isVarchar.getD c false &&
        decide (addSize (st.colBytes.getD c 0) (rg.varchar c) ≥ cudfInt32StringsThreshold))

/-- A row group is taken (lines 142–155). -/
def Coalescer.take (cfg : Config C S) (st : Coalescer X C P S) (item : Item X C P S) :
    Coalescer X C P S :=
  { st with
    accBytes := addSize st.accBytes item.rowGroup.decodedBytesBudget
    colBytes :=
      if cfg.anyVarchar then st.colBytes.mapIdx fun c b => addSize b (item.rowGroup.varchar c)
      else st.colBytes
    acc := st.acc ++ [item.rowGroup]
    certificates := st.certificates ++ [item.certificate]
    dependencies := st.dependencies ++
      [{ item.dependency with datasource := st.template.bind Template.datasource }] }

/-- What a call gives: the coalescer, the cursor, and the `cursor_step`. -/
structure CursorStep (X C P S : Type) where
  coalescer : Coalescer X C P S
  cursor : ℕ
  batch : Option (ScanInfo X C P S)
  finished : Bool

/-- The loop of `advance` (lines 119–157), over what is left of the input. -/
def scan (cfg : Config C S) :
    ℕ → List (Item X C P S) → Coalescer X C P S → ℕ → CursorStep X C P S
  | 0, rest, st, cursor => ⟨st, cursor, none, rest.isEmpty⟩
  | _ + 1, [], st, cursor => ⟨st, cursor, none, true⟩
  | quantum + 1, item :: rest, st, cursor =>
    if item.rowGroup.rowCount = 0 then scan cfg quantum rest st (cursor + 1)
    else if !st.acc.isEmpty && st.exceeds cfg item.rowGroup then
      ⟨(st.emitCurrent cfg).2, cursor, some (st.emitCurrent cfg).1, false⟩
    else scan cfg quantum rest (st.take cfg item) (cursor + 1)

/-- The checks of `advance` (lines 102–114). -/
def ScanInfo.check (cfg : Config C S) (info : ScanInfo X C P S) : Option String :=
  if info.certificates.length ≠ info.rowGroups.length ∨
      info.dependencies.length ≠ info.rowGroups.length then
    some "native split requires one certificate and dependency per row group"
  else
    match info.datasource with
    | none => some "native range requires a datasource"
    | some source =>
      if info.dependencies.any fun d =>
          (d.datasource.map cfg.ioObject) ≠ some (cfg.ioObject source) then
        some "native row-group dependency does not match its range"
      else none

/-- `advance(input, cursor, quantum)` (lines 97–158). -/
def Coalescer.advance (cfg : Config C S) (st : Coalescer X C P S) (info : ScanInfo X C P S)
    (cursor quantum : ℕ) : Except String (CursorStep X C P S) :=
  match info.check cfg with
  | some e => .error e
  | none =>
    let template := st.template.getD
      { datasource := info.datasource
        blockManager := info.blockManager
        contractId := info.contractId }
    let s := scan cfg quantum (info.items.drop cursor) { st with template := some template } cursor
    settle cfg s.batch s

/-- `flush()` (lines 160–176). -/
def Coalescer.flush (cfg : Config C S) (st : Coalescer X C P S) :
    Except String (List (ScanInfo X C P S)) :=
  (st.partialEmit cfg).map fun (batch, st) =>
    if !st.producedAny && st.template.isSome then
      batch.toList ++ [Template.split cfg st.template [] [] []]
    else batch.toList

/-! ## Runs -/

/-- The coalescer and the inputs that are not finished; the cursor is in the first. -/
structure Driver (X C P S : Type) where
  coalescer : Coalescer X C P S
  inputs : List (ScanInfo X C P S)
  cursor : ℕ := 0

/-- The calls of a run. -/
inductive Call where
  | advance (quantum : ℕ)
  | partialEmit
  deriving DecidableEq, Repr

/-- One call: the driver after it, and the split that it emits. -/
def Driver.step (cfg : Config C S) (d : Driver X C P S) :
    Call → Except String (Driver X C P S × Option (ScanInfo X C P S))
  | .partialEmit =>
    (d.coalescer.partialEmit cfg).map fun (batch, st) => ({ d with coalescer := st }, batch)
  | .advance quantum =>
    match d.inputs with
    | [] => .ok (d, none)
    | info :: rest =>
      (d.coalescer.advance cfg info d.cursor quantum).map fun s =>
        if s.finished then ({ coalescer := s.coalescer, inputs := rest, cursor := 0 }, s.batch)
        else ({ coalescer := s.coalescer, inputs := info :: rest, cursor := s.cursor }, s.batch)

/-- A list of calls. -/
def Driver.run (cfg : Config C S) (d : Driver X C P S) :
    List Call → Except String (Driver X C P S × List (ScanInfo X C P S))
  | [] => .ok (d, [])
  | call :: calls => do
    let (d', batch) ← d.step cfg call
    let (d'', out) ← d'.run cfg calls
    return (d'', batch.toList ++ out)

def Driver.start (cfg : Config C S) (inputs : List (ScanInfo X C P S)) : Driver X C P S :=
  { coalescer := .start cfg, inputs := inputs }

/-- The calls finish all inputs, and with `flush` at the end they emit the splits. -/
def Emits (cfg : Config C S) (inputs : List (ScanInfo X C P S)) (calls : List Call)
    (splits : List (ScanInfo X C P S)) : Prop :=
  ∃ d out last, (Driver.start cfg inputs).run cfg calls = .ok (d, out) ∧ d.inputs = [] ∧
    d.coalescer.flush cfg = .ok last ∧ splits = out ++ last

/-! ## What has been accumulated -/

/-- The row group has rows. -/
def Item.visible (item : Item X C P S) : Bool := item.rowGroup.rowCount ≠ 0

def totalBytes (l : List (Item X C P S)) : ℕ :=
  (l.map fun item => item.rowGroup.decodedBytesBudget).sum

def columnBytes (c : ℕ) (l : List (Item X C P S)) : ℕ :=
  (l.map fun item => item.rowGroup.varchar c).sum

/-- No sum of the sizes overflows. -/
def NoOverflow (l : List (Item X C P S)) : Prop :=
  totalBytes l < 2 ^ 64 ∧ ∀ c, columnBytes c l < 2 ^ 64

/-- The row group fits into the batch: under the cap, and in every string column under the limit of
    its offsets. -/
def fits (cfg : Config C S) (l : List (Item X C P S)) (item : Item X C P S) : Bool :=
  (decide (cfg.cap = 0) || decide (totalBytes (l ++ [item]) ≤ cfg.cap)) &&
    (List.range cfg.isVarchar.length).all fun c =>
      !cfg.isVarchar.getD c false || decide (columnBytes c (l ++ [item]) < cudfInt32StringsThreshold)

/-- A dependency as a split has it: bound to the source of the template. -/
def Item.bound (t : Option (Template S)) (item : Item X C P S) : Dependency P S :=
  { item.dependency with datasource := t.bind Template.datasource }

/-- The split of a batch. -/
def splitOf (cfg : Config C S) (t : Option (Template S)) (l : List (Item X C P S)) :
    ScanInfo X C P S :=
  Template.split cfg t (l.map Item.rowGroup) (l.map Item.certificate) (l.map (Item.bound t))

/-- The coalescer has accumulated the row groups. -/
structure Held (cfg : Config C S) (st : Coalescer X C P S) (l : List (Item X C P S)) : Prop where
  acc : st.acc = l.map Item.rowGroup
  certificates : st.certificates = l.map Item.certificate
  dependencies : st.dependencies = l.map (Item.bound st.template)
  accBytes : st.accBytes = totalBytes l % 2 ^ 64
  colLength : st.colBytes.length = cfg.isVarchar.length
  colBytes : cfg.anyVarchar = true → ∀ c < cfg.isVarchar.length,
    st.colBytes.getD c 0 = columnBytes c l % 2 ^ 64

variable {cfg : Config C S} {st : Coalescer X C P S} {l : List (Item X C P S)}
  {item : Item X C P S}

theorem totalBytes_append (l r : List (Item X C P S)) :
    totalBytes (l ++ r) = totalBytes l + totalBytes r := by
  simp [totalBytes]

theorem columnBytes_append (c : ℕ) (l r : List (Item X C P S)) :
    columnBytes c (l ++ r) = columnBytes c l + columnBytes c r := by
  simp [columnBytes]

theorem NoOverflow.left {l r : List (Item X C P S)} (h : NoOverflow (l ++ r)) : NoOverflow l := by
  refine ⟨?_, fun c => ?_⟩
  · have := h.1
    rw [totalBytes_append] at this
    omega
  · have := h.2 c
    rw [columnBytes_append] at this
    omega

theorem NoOverflow.right {l r : List (Item X C P S)} (h : NoOverflow (l ++ r)) : NoOverflow r := by
  refine ⟨?_, fun c => ?_⟩
  · have := h.1
    rw [totalBytes_append] at this
    omega
  · have := h.2 c
    rw [columnBytes_append] at this
    omega

theorem held_start (cfg : Config C S) : Held cfg (Coalescer.start cfg : Coalescer X C P S) [] where
  acc := rfl
  certificates := rfl
  dependencies := rfl
  accBytes := rfl
  colLength := List.length_replicate
  colBytes _ c hc := by simp [Coalescer.start, columnBytes, hc]

theorem Held.isEmpty_acc (h : Held cfg st l) : st.acc.isEmpty = l.isEmpty := by
  rw [h.acc, List.isEmpty_map]

/-- The counters decide as the sizes do. -/
theorem Held.exceeds_eq (h : Held cfg st l) (hno : NoOverflow (l ++ [item])) :
    st.exceeds cfg item.rowGroup = !fits cfg l item := by
  have htotal : addSize st.accBytes item.rowGroup.decodedBytesBudget = totalBytes (l ++ [item]) := by
    have hsum : totalBytes (l ++ [item]) = totalBytes l + item.rowGroup.decodedBytesBudget := by
      simp [totalBytes]
    have := hno.1
    rw [addSize, h.accBytes, hsum, Nat.mod_add_mod, Nat.mod_eq_of_lt (hsum ▸ this)]
  have hcolumn (hany : cfg.anyVarchar = true) (c : ℕ) (hc : c < cfg.isVarchar.length) :
      addSize (st.colBytes.getD c 0) (item.rowGroup.varchar c) = columnBytes c (l ++ [item]) := by
    have hsum : columnBytes c (l ++ [item]) = columnBytes c l + item.rowGroup.varchar c := by
      simp [columnBytes]
    have := hno.2 c
    rw [addSize, h.colBytes hany c hc, hsum, Nat.mod_add_mod, Nat.mod_eq_of_lt (hsum ▸ this)]
  rw [Coalescer.exceeds, fits, htotal, Bool.not_and]
  congr 1
  · rw [Bool.not_or, ← decide_not, ← decide_not]
    congr 1
    · exact decide_eq_decide.mpr (by omega)
    · exact decide_eq_decide.mpr (by omega)
  · rw [Bool.eq_iff_iff]
    simp only [Bool.and_eq_true, List.any_eq_true, List.mem_range, decide_eq_true_eq,
      Bool.not_eq_true', List.all_eq_false, Bool.or_eq_true, not_or, Bool.not_eq_false, not_lt]
    constructor
    · rintro ⟨hany, c, hc, hvarchar, hge⟩
      exact ⟨c, hc, hvarchar, hcolumn hany c hc ▸ hge⟩
    · rintro ⟨c, hc, hvarchar, hge⟩
      have hany : cfg.anyVarchar = true := by
        rw [List.getD_eq_getElem _ _ hc] at hvarchar
        exact List.any_eq_true.mpr ⟨true, hvarchar ▸ List.getElem_mem hc, rfl⟩
      exact ⟨hany, c, hc, hvarchar, (hcolumn hany c hc).symm ▸ hge⟩

/-- A row group is taken. -/
theorem Held.take (h : Held cfg st l) (item : Item X C P S) :
    Held cfg (st.take cfg item) (l ++ [item]) where
  acc := by
    rw [Coalescer.take, h.acc, List.map_append]
    rfl
  certificates := by
    rw [Coalescer.take, h.certificates, List.map_append]
    rfl
  dependencies := by
    rw [Coalescer.take, h.dependencies, List.map_append]
    rfl
  accBytes := by
    rw [Coalescer.take, h.accBytes, totalBytes_append]
    simp [addSize, totalBytes]
  colLength := by
    rw [Coalescer.take]
    dsimp only
    split_ifs
    · rw [List.length_mapIdx, h.colLength]
    · exact h.colLength
  colBytes hany c hc := by
    have hlt : c < st.colBytes.length := h.colLength ▸ hc
    have hold := h.colBytes hany c hc
    rw [List.getD_eq_getElem _ _ hlt] at hold
    rw [Coalescer.take]
    dsimp only
    rw [if_pos hany, List.getD_eq_getElem _ _ (by rwa [List.length_mapIdx]), List.getElem_mapIdx,
      hold, columnBytes_append]
    simp [addSize, columnBytes]

theorem Held.emitCurrent (h : Held cfg st l) :
    (st.emitCurrent cfg).1 = splitOf cfg st.template l ∧
      Held cfg (st.emitCurrent cfg).2 [] := by
  refine ⟨?_, rfl, rfl, rfl, rfl, ?_, fun _ c hc => ?_⟩
  · rw [Coalescer.emitCurrent, splitOf, h.acc, h.certificates, h.dependencies]
  · rw [Coalescer.emitCurrent]
    dsimp only
    rw [List.length_replicate, h.colLength]
  · rw [Coalescer.emitCurrent]
    dsimp only
    rw [h.colLength]
    simp [columnBytes, hc]

/-! ## One call -/

/-- What is left to do on row groups, with a batch open or not. -/
def work (rest l : List (Item X C P S)) : ℕ := 2 * rest.length + if l.isEmpty then 0 else 1

/-- What a call of `advance` has done with what was left of its input: it has gone past `n` row
    groups, and has closed a batch or none. -/
structure Scanned (cfg : Config C S) (st : Coalescer X C P S) (l rest : List (Item X C P S))
    (cursor : ℕ) (s : CursorStep X C P S) (n : ℕ) (b : Option (List (Item X C P S)))
    (l' : List (Item X C P S)) : Prop where
  cursor : s.cursor = cursor + n
  finished : s.finished = (rest.drop n).isEmpty
  batch : s.batch = b.map (splitOf cfg st.template)
  held : Held cfg s.coalescer l'
  template : s.coalescer.template = st.template
  produced : s.coalescer.producedAny = (st.producedAny || b.isSome)
  packed : Packed (fits cfg) l'
  packedBatch : ∀ x ∈ b, Packed (fits cfg) x ∧ x ≠ []
  content : b.toList.flatten ++ (l' ++ (rest.drop n).filter Item.visible) =
    l ++ rest.filter Item.visible
  plain : ∀ tail, b.toList ++ batches (fits cfg) l' ((rest.drop n).filter Item.visible ++ tail) =
    batches (fits cfg) l (rest.filter Item.visible ++ tail)
  work_le : work (rest.drop n) l' ≤ work rest l

/-- Nothing is done. -/
theorem scanned_idle (cfg : Config C S) {rest : List (Item X C P S)} (cursor : ℕ)
    (h : Held cfg st l) (hpacked : Packed (fits cfg) l) :
    Scanned cfg st l rest cursor ⟨st, cursor, none, rest.isEmpty⟩ 0 none l where
  cursor := rfl
  finished := rfl
  batch := rfl
  held := h
  template := rfl
  produced := (Bool.or_false _).symm
  packed := hpacked
  packedBatch _ hx := nomatch hx
  content := rfl
  plain _ := rfl
  work_le := le_rfl

variable {s : CursorStep X C P S} {b : Option (List (Item X C P S))}

/-- A row group is passed, and maybe taken, before what the rest of the loop does. -/
theorem Scanned.cons {st₁ : Coalescer X C P S} {l₁ l' rest : List (Item X C P S)}
    {cursor n : ℕ}
    (h : Scanned cfg st₁ l₁ rest (cursor + 1) s n b l') (htemplate : st₁.template = st.template)
    (hproduced : st₁.producedAny = st.producedAny)
    (hcontent : l₁ ++ rest.filter Item.visible = l ++ (item :: rest).filter Item.visible)
    (hplain : ∀ tail, batches (fits cfg) l₁ (rest.filter Item.visible ++ tail) =
      batches (fits cfg) l ((item :: rest).filter Item.visible ++ tail))
    (hwork : work rest l₁ ≤ work (item :: rest) l) :
    Scanned cfg st l (item :: rest) cursor s (n + 1) b l' where
  cursor := by
    rw [h.cursor]
    omega
  finished := h.finished
  batch := by rw [h.batch, htemplate]
  held := h.held
  template := h.template.trans htemplate
  produced := by rw [h.produced, hproduced]
  packed := h.packed
  packedBatch := h.packedBatch
  content := h.content.trans hcontent
  plain tail := (h.plain tail).trans (hplain tail)
  work_le := h.work_le.trans hwork

theorem work_le_cons (rest l l₁ : List (Item X C P S)) : work rest l₁ < work (item :: rest) l := by
  rw [work, work, List.length_cons]
  split_ifs <;> omega

/-- **What a call of `advance` does.** With a quantum there is less to do after it. -/
theorem scan_spec (quantum : ℕ) (rest : List (Item X C P S)) (cursor : ℕ) (h : Held cfg st l)
    (hpacked : Packed (fits cfg) l) (hno : NoOverflow (l ++ rest.filter Item.visible)) :
    ∃ n b l', Scanned cfg st l rest cursor (scan cfg quantum rest st cursor) n b l' ∧
      (0 < quantum → rest ≠ [] → work (rest.drop n) l' < work rest l) := by
  induction quantum generalizing rest st l cursor with
  | zero => exact ⟨0, none, l, scanned_idle cfg cursor h hpacked, fun hq => absurd hq (lt_irrefl 0)⟩
  | succ quantum ih =>
    cases rest with
    | nil => exact ⟨0, none, l, scanned_idle cfg cursor h hpacked, fun _ hr => absurd rfl hr⟩
    | cons item rest =>
      rw [scan]
      split_ifs with hrows hexceeds
      · have hinvisible : (item :: rest).filter Item.visible = rest.filter Item.visible := by
          rw [List.filter_cons_of_neg (by simp [Item.visible, hrows])]
        rw [hinvisible] at hno
        obtain ⟨n, b, l', hs, -⟩ := ih rest (cursor + 1) h hpacked hno
        refine ⟨n + 1, b, l', hs.cons rfl rfl (by rw [hinvisible]) (fun _ => by rw [hinvisible])
          (work_le_cons rest l l).le, fun _ _ => ?_⟩
        exact hs.work_le.trans_lt (work_le_cons rest l l)
      · -- the open batch is closed, and the row group stays where it is
        have hvisible : (item :: rest).filter Item.visible = item :: rest.filter Item.visible := by
          rw [List.filter_cons_of_pos (by simp [Item.visible, hrows])]
        rw [Bool.and_eq_true, Bool.not_eq_true', h.isEmpty_acc, List.isEmpty_eq_false_iff] at hexceeds
        have hno' : NoOverflow (l ++ [item]) := by
          rw [hvisible, List.append_cons] at hno
          exact hno.left
        have hfits : fits cfg l item = false := by
          have := h.exceeds_eq hno'
          rw [hexceeds.2] at this
          simpa using this.symm
        obtain ⟨hsplit, hheld⟩ := h.emitCurrent
        have hless : work (item :: rest) ([] : List (Item X C P S)) < work (item :: rest) l := by
          simp [work, hexceeds.1]
        refine ⟨0, some l, [], ⟨rfl, rfl, congrArg some hsplit, hheld, rfl, ?_, packed_nil, ?_, ?_,
          ?_, hless.le⟩, fun _ _ => hless⟩
        · exact (Bool.or_true _).symm
        · intro x hx
          cases hx
          exact ⟨hpacked, hexceeds.1⟩
        · simp
        · intro tail
          rw [List.drop_zero, hvisible, List.cons_append, batches_cut hexceeds.1 hfits]
          rfl
      · have hvisible : (item :: rest).filter Item.visible = item :: rest.filter Item.visible := by
          rw [List.filter_cons_of_pos (by simp [Item.visible, hrows])]
        rw [hvisible, List.append_cons] at hno
        have hfits : l ≠ [] → fits cfg l item = true := by
          intro hl
          have := h.exceeds_eq hno.left
          rw [← List.isEmpty_eq_false_iff] at hl
          rw [h.isEmpty_acc, hl, Bool.not_false, Bool.true_and, Bool.not_eq_true] at hexceeds
          rw [hexceeds] at this
          simpa using this.symm
        obtain ⟨n, b, l', hs, -⟩ := ih rest (cursor + 1) (h.take item) (hpacked.concat hfits) hno
        refine ⟨n + 1, b, l', hs.cons rfl rfl ?_ ?_ (work_le_cons rest l _).le, fun _ _ => ?_⟩
        · rw [hvisible, List.append_assoc, List.singleton_append]
        · intro tail
          rw [hvisible, List.cons_append, batches_keep hfits]
        · exact hs.work_le.trans_lt (work_le_cons rest l _)

/-! ## Runs -/

/-- The row groups of the input that have rows. -/
def ScanInfo.visible (info : ScanInfo X C P S) : List (Item X C P S) :=
  info.items.filter Item.visible

/-- The template of a sequence of inputs: the first. -/
def templateOf (inputs : List (ScanInfo X C P S)) : Option (Template S) :=
  inputs.head?.map fun info =>
    { datasource := info.datasource
      blockManager := info.blockManager
      contractId := info.contractId }

/-- What the driver has still to feed. -/
def Driver.remaining (d : Driver X C P S) : List (Item X C P S) :=
  match d.inputs with
  | [] => []
  | info :: rest => (info.items.drop d.cursor).filter Item.visible ++ rest.flatMap ScanInfo.visible

/-- How much there is to do: for each input, and on its row groups. -/
def Driver.work (d : Driver X C P S) (l : List (Item X C P S)) : ℕ :=
  match d.inputs with
  | [] => if l.isEmpty then 0 else 1
  | info :: rest => Native.work (info.items.drop d.cursor) l + 1 +
    (rest.map fun info => 2 * info.items.length + 1).sum

/-- The invariant of a run: the batches that were closed, and the open one. -/
structure Inv (cfg : Config C S) (inputs : List (ScanInfo X C P S)) (plain : Prop)
    (d : Driver X C P S) (out : List (ScanInfo X C P S)) (bs : List (List (Item X C P S)))
    (l : List (Item X C P S)) : Prop where
  held : Held cfg d.coalescer l
  out : out = bs.map (splitOf cfg (templateOf inputs))
  packed : Packed (fits cfg) l
  closed : ∀ b ∈ bs, Packed (fits cfg) b ∧ b ≠ []
  content : bs.flatten ++ (l ++ d.remaining) = inputs.flatMap ScanInfo.visible
  plain : plain → bs ++ batches (fits cfg) l d.remaining =
    batches (fits cfg) [] (inputs.flatMap ScanInfo.visible)
  produced : d.coalescer.producedAny = !bs.isEmpty
  template : d.coalescer.template = templateOf inputs ∨
    d.coalescer.template = none ∧ d.inputs = inputs ∧ bs = [] ∧ l = []
  inputs_mem : ∀ info ∈ d.inputs, info ∈ inputs
  checked : ∀ info ∈ inputs, info ∈ d.inputs ∨ info.check cfg = none

variable {inputs : List (ScanInfo X C P S)} {d : Driver X C P S} {plain : Prop}
  {out : List (ScanInfo X C P S)} {bs : List (List (Item X C P S))}

theorem remaining_start (cfg : Config C S) (inputs : List (ScanInfo X C P S)) :
    (Driver.start cfg inputs).remaining = inputs.flatMap ScanInfo.visible := by
  cases inputs with
  | nil => rfl
  | cons info rest => rfl

theorem Inv.start (cfg : Config C S) (inputs : List (ScanInfo X C P S)) :
    Inv cfg inputs plain (Driver.start cfg inputs) [] [] [] where
  held := held_start cfg
  out := rfl
  packed := packed_nil
  closed _ hb := nomatch hb
  content := remaining_start cfg inputs
  plain _ := by
    rw [remaining_start]
    rfl
  produced := rfl
  template := .inr ⟨rfl, rfl, rfl, rfl⟩
  inputs_mem _ h := h
  checked _ h := .inl h

variable {info : ScanInfo X C P S} {rest : List (ScanInfo X C P S)}

/-- The template that `advance` uses is that of the inputs. -/
theorem Inv.template_getD (h : Inv cfg inputs plain d out bs l) (hd : d.inputs = info :: rest) :
    some (d.coalescer.template.getD
      { datasource := info.datasource
        blockManager := info.blockManager
        contractId := info.contractId }) = templateOf inputs := by
  rcases h.template with heq | ⟨hnone, hinputs, -⟩
  · have hmem := h.inputs_mem info (by simp [hd])
    cases inputs with
    | nil => cases hmem
    | cons first others =>
      rw [heq]
      rfl
  · rw [hnone, ← hinputs, hd]
    rfl

theorem map_eq_ok {α β : Type} {x : Except String α} {f : α → β} {b : β} :
    x.map f = .ok b ↔ ∃ a, x = .ok a ∧ f a = b := by
  cases x with
  | error e => simp [Except.map]
  | ok a => simp [Except.map]

theorem settle_eq_ok {α : Type} {split : Option (ScanInfo X C P S)} {a b : α}
    (h : settle cfg split a = .ok b) : b = a := by
  rw [settle] at h
  split at h
  · cases h
  · exact (Except.ok.inj h).symm

variable {batch : Option (ScanInfo X C P S)}

/-- What `partial_emit` does: nothing, or it closes the open batch. -/
theorem Held.partialEmit (h : Held cfg st l) {st' : Coalescer X C P S}
    (he : st.partialEmit cfg = .ok (batch, st')) :
    (l = [] ∧ batch = none ∧ st' = st) ∨
      (l ≠ [] ∧ batch = some (splitOf cfg st.template l) ∧ st' = (st.emitCurrent cfg).2) := by
  rw [Coalescer.partialEmit, h.isEmpty_acc] at he
  split_ifs at he with hl
  · obtain ⟨rfl, rfl⟩ := Prod.mk.inj (Except.ok.inj he)
    exact .inl ⟨List.isEmpty_iff.mp hl, rfl, rfl⟩
  · obtain ⟨rfl, rfl⟩ := Prod.mk.inj (settle_eq_ok he)
    exact .inr ⟨by simpa using hl, congrArg some h.emitCurrent.1, rfl⟩

/-- An open batch was built from the template of the inputs. -/
theorem Inv.template_eq (h : Inv cfg inputs plain d out bs l) (hl : l ≠ []) :
    d.coalescer.template = templateOf inputs :=
  h.template.resolve_right fun hr => hl hr.2.2.2

/-- The open batch is closed. -/
theorem Inv.close (h : Inv cfg inputs plain d out bs l) (hl : l ≠ []) :
    Inv cfg inputs False { d with coalescer := (d.coalescer.emitCurrent cfg).2 }
      (out ++ [splitOf cfg d.coalescer.template l]) (bs ++ [l]) [] where
  held := h.held.emitCurrent.2
  out := by rw [h.out, h.template_eq hl, List.map_append, List.map_singleton]
  packed := packed_nil
  closed b hb := by
    rcases List.mem_append.mp hb with hb | hb
    · exact h.closed b hb
    · rw [List.mem_singleton.mp hb]
      exact ⟨h.packed, hl⟩
  content := by
    rw [← h.content]
    simp [Driver.remaining]
  plain := False.elim
  produced := by
    rw [Coalescer.emitCurrent]
    simp
  template := .inl (h.template_eq hl)
  inputs_mem := h.inputs_mem
  checked := h.checked

variable {d' : Driver X C P S}

/-- A call of `partial_emit`. -/
theorem Inv.partialEmit (h : Inv cfg inputs plain d out bs l)
    (hs : d.step cfg .partialEmit = .ok (d', batch)) :
    ∃ bs' l', Inv cfg inputs False d' (out ++ batch.toList) bs' l' ∧ d'.work l' ≤ d.work l := by
  rw [Driver.step] at hs
  obtain ⟨⟨batch, st'⟩, he, hs⟩ := map_eq_ok.mp hs
  obtain ⟨rfl, rfl⟩ := Prod.mk.inj hs
  rcases h.held.partialEmit he with ⟨rfl, rfl, rfl⟩ | ⟨hl, rfl, rfl⟩
  · refine ⟨bs, [], { h with out := ?_, plain := False.elim }, le_rfl⟩
    rw [Option.toList_none, List.append_nil, h.out]
  · refine ⟨bs ++ [l], [], h.close hl, ?_⟩
    rw [Driver.work, Driver.work]
    dsimp only
    split <;> simp [Native.work]

/-- Setting the template changes nothing that is held. -/
theorem Held.withTemplate (h : Held cfg st l) {t : Template S}
    (ht : l ≠ [] → st.template = some t) : Held cfg { st with template := some t } l where
  acc := h.acc
  certificates := h.certificates
  dependencies := by
    by_cases hl : l = []
    · subst hl
      exact h.dependencies
    · rw [h.dependencies, ht hl]
  accBytes := h.accBytes
  colLength := h.colLength
  colBytes := h.colBytes

/-- The driver after a step of `advance` on its first input. -/
def Driver.after (info : ScanInfo X C P S) (rest : List (ScanInfo X C P S))
    (s : CursorStep X C P S) : Driver X C P S :=
  if s.finished then { coalescer := s.coalescer, inputs := rest, cursor := 0 }
  else { coalescer := s.coalescer, inputs := info :: rest, cursor := s.cursor }

variable {l' : List (Item X C P S)}

/-- What the loop has not looked at is what the driver has still to feed. -/
theorem remaining_after {n : ℕ} {cursor : ℕ}
    (hs : Scanned cfg st l (info.items.drop cursor) cursor s n b l') :
    (Driver.after info rest s).remaining =
      ((info.items.drop cursor).drop n).filter Item.visible ++ rest.flatMap ScanInfo.visible := by
  rw [Driver.after]
  split_ifs with hfin
  · rw [hs.finished, List.isEmpty_iff] at hfin
    rw [hfin, List.filter_nil, List.nil_append]
    exact remaining_start cfg rest
  · rw [List.drop_drop, ← hs.cursor]
    rfl

theorem work_after {n : ℕ} (hd : d.inputs = info :: rest)
    (hs : Scanned cfg st l (info.items.drop d.cursor) d.cursor s n b l') :
    (Driver.after info rest s).work l' ≤ d.work l ∧
      ((info.items.drop d.cursor ≠ [] →
        work ((info.items.drop d.cursor).drop n) l' < work (info.items.drop d.cursor) l) →
        (Driver.after info rest s).work l' < d.work l) := by
  have hle := hs.work_le
  have hbefore : d.work l = work (info.items.drop d.cursor) l + 1 +
      (rest.map fun info => 2 * info.items.length + 1).sum := by
    rw [Driver.work, hd]
  rw [hbefore, Driver.after]
  split_ifs with hfin
  · rw [hs.finished, List.isEmpty_iff] at hfin
    have hless : Driver.work { coalescer := s.coalescer, inputs := rest, cursor := 0 } l' <
        work (info.items.drop d.cursor) l + 1 +
          (rest.map fun info => 2 * info.items.length + 1).sum := by
      rw [hfin] at hle
      cases rest with
      | nil =>
        simp only [Driver.work, work, List.length_nil, List.map_nil, List.sum_nil] at hle ⊢
        omega
      | cons next others =>
        simp only [Driver.work, work, List.length_nil, List.map_cons, List.sum_cons,
          List.drop_zero] at hle ⊢
        omega
    exact ⟨hless.le, fun _ => hless⟩
  · have hafter : work (info.items.drop s.cursor) l' =
        work ((info.items.drop d.cursor).drop n) l' := by
      rw [List.drop_drop, ← hs.cursor]
    rw [Driver.work]
    dsimp only
    rw [hafter]
    refine ⟨by omega, fun hless => ?_⟩
    have hne : info.items.drop d.cursor ≠ [] := by
      intro hnil
      rw [hs.finished, hnil, List.drop_nil] at hfin
      exact hfin rfl
    have := hless hne
    omega

@[simp] theorem after_coalescer (info : ScanInfo X C P S) (rest : List (ScanInfo X C P S))
    (s : CursorStep X C P S) : (Driver.after info rest s).coalescer = s.coalescer := by
  rw [Driver.after]
  split_ifs <;> rfl

theorem mem_inputs_after {other : ScanInfo X C P S}
    (h : other ∈ (Driver.after info rest s).inputs) : other ∈ info :: rest := by
  rw [Driver.after] at h
  split_ifs at h
  · exact List.mem_cons_of_mem _ h
  · exact h

theorem mem_inputs_after_of_rest {other : ScanInfo X C P S} (h : other ∈ rest) :
    other ∈ (Driver.after info rest s).inputs := by
  rw [Driver.after]
  split_ifs
  · exact h
  · exact List.mem_cons_of_mem _ h

/-- The loop keeps the invariant. -/
theorem Inv.scanned (h : Inv cfg inputs plain d out bs l) (hd : d.inputs = info :: rest)
    (hcheck : info.check cfg = none) {t : Template S} (ht : some t = templateOf inputs) {n : ℕ}
    (hs : Scanned cfg { d.coalescer with template := some t } l (info.items.drop d.cursor) d.cursor
      s n b l') :
    Inv cfg inputs plain (Driver.after info rest s) (out ++ s.batch.toList) (bs ++ b.toList) l' := by
  have hremaining : d.remaining = (info.items.drop d.cursor).filter Item.visible ++
      rest.flatMap ScanInfo.visible := by
    rw [Driver.remaining, hd]
  have hafter : (Driver.after info rest s).remaining = _ := remaining_after hs
  exact
    { held := by
        rw [after_coalescer]
        exact hs.held
      out := by
        rw [h.out, hs.batch, ht, List.map_append]
        cases b <;> rfl
      packed := hs.packed
      closed := by
        intro x hx
        rcases List.mem_append.mp hx with hx | hx
        · exact h.closed x hx
        · exact hs.packedBatch x (Option.mem_toList.mp hx)
      content := by
        rw [hafter, ← h.content, hremaining, ← List.append_assoc l, ← hs.content]
        simp
      plain := by
        intro hplain
        rw [hafter, ← h.plain hplain, hremaining, ← hs.plain, List.append_assoc]
      produced := by
        rw [after_coalescer, hs.produced]
        dsimp only
        rw [h.produced]
        cases b with
        | none => simp
        | some x => simp
      template := by
        rw [after_coalescer, hs.template]
        exact .inl ht
      inputs_mem := fun other ho => h.inputs_mem other (hd ▸ mem_inputs_after ho)
      checked := by
        intro other ho
        rcases h.checked other ho with hin | hok
        · rw [hd] at hin
          rcases List.mem_cons.mp hin with rfl | hrest
          · exact .inr hcheck
          · exact .inl (mem_inputs_after_of_rest hrest)
        · exact .inr hok }

/-- The loop of a call of `advance` on the first input. -/
theorem Inv.scan (h : Inv cfg inputs plain d out bs l)
    (hno : NoOverflow (inputs.flatMap ScanInfo.visible)) (hd : d.inputs = info :: rest)
    (quantum : ℕ) {t : Template S} (ht : some t = templateOf inputs) :
    ∃ n b l', Scanned cfg { d.coalescer with template := some t } l (info.items.drop d.cursor)
        d.cursor (Native.scan cfg quantum (info.items.drop d.cursor)
          { d.coalescer with template := some t } d.cursor) n b l' ∧
      (0 < quantum → info.items.drop d.cursor ≠ [] →
        work ((info.items.drop d.cursor).drop n) l' < work (info.items.drop d.cursor) l) := by
  have hno' : NoOverflow (l ++ (info.items.drop d.cursor).filter Item.visible) := by
    rw [← h.content, Driver.remaining, hd, ← List.append_assoc l] at hno
    exact hno.right.left
  have hheld : Held cfg { d.coalescer with template := some t } l :=
    h.held.withTemplate fun hl => by rw [ht, h.template_eq hl]
  exact scan_spec quantum (info.items.drop d.cursor) d.cursor hheld h.packed hno'

/-- A call of `advance`. -/
theorem Inv.advance (h : Inv cfg inputs plain d out bs l)
    (hno : NoOverflow (inputs.flatMap ScanInfo.visible)) {quantum : ℕ}
    (hs : d.step cfg (.advance quantum) = .ok (d', batch)) :
    ∃ bs' l', Inv cfg inputs plain d' (out ++ batch.toList) bs' l' ∧ d'.work l' ≤ d.work l ∧
      (0 < quantum → d.inputs ≠ [] → d'.work l' < d.work l) := by
  rw [Driver.step] at hs
  cases hd : d.inputs with
  | nil =>
    rw [hd] at hs
    obtain ⟨rfl, rfl⟩ := Prod.mk.inj (Except.ok.inj hs)
    refine ⟨bs, l, ?_, le_rfl, fun _ hne => absurd rfl hne⟩
    rw [Option.toList_none, List.append_nil]
    exact h
  | cons info rest =>
    rw [hd] at hs
    obtain ⟨s, hadvance, hs⟩ := map_eq_ok.mp hs
    rw [Coalescer.advance] at hadvance
    split at hadvance
    · cases hadvance
    next hcheck =>
    have hafter : d' = Driver.after info rest s ∧ batch = s.batch := by
      rw [Driver.after]
      split_ifs at hs ⊢ with hfin
      · exact ⟨(Prod.mk.inj hs).1.symm, (Prod.mk.inj hs).2.symm⟩
      · exact ⟨(Prod.mk.inj hs).1.symm, (Prod.mk.inj hs).2.symm⟩
    have htemplate := h.template_getD hd
    obtain ⟨n, b, l', hscan, hless⟩ := h.scan hno hd quantum htemplate
    rw [← settle_eq_ok hadvance] at hscan
    have hwork := work_after hd hscan
    obtain ⟨rfl, rfl⟩ := hafter
    exact ⟨bs ++ b.toList, l', h.scanned hd hcheck htemplate hscan, hwork.1,
      fun hq _ => hwork.2 (hless hq)⟩

/-- The call is of `advance`. -/
def Call.isAdvance : Call → Bool
  | .advance _ => true
  | .partialEmit => false

theorem inputs_step_nil {call : Call} (hd : d.inputs = [])
    (hs : d.step cfg call = .ok (d', batch)) : d'.inputs = [] := by
  cases call with
  | advance quantum =>
    rw [Driver.step, hd] at hs
    rw [← (Prod.mk.inj (Except.ok.inj hs)).1, hd]
  | partialEmit =>
    obtain ⟨r, -, hr⟩ := map_eq_ok.mp hs
    rw [← (Prod.mk.inj hr).1]
    exact hd

variable {calls : List Call}

/-- A call and the calls after it. -/
theorem run_cons {d'' : Driver X C P S} {call : Call} {all : List (ScanInfo X C P S)}
    (hr : d.run cfg (call :: calls) = .ok (d'', all)) :
    ∃ d' batch more, d.step cfg call = .ok (d', batch) ∧ d'.run cfg calls = .ok (d'', more) ∧
      all = batch.toList ++ more := by
  rw [Driver.run, bind_eq_ok] at hr
  obtain ⟨⟨d', batch⟩, hstep, hr⟩ := hr
  obtain ⟨⟨d₂, more⟩, hrun, hr⟩ := bind_eq_ok.mp hr
  obtain ⟨rfl, rfl⟩ := Prod.mk.inj (Except.ok.inj hr)
  exact ⟨d', batch, more, hstep, hrun, rfl⟩

theorem inputs_run_nil {more : List (ScanInfo X C P S)} (hd : d.inputs = [])
    (hr : d.run cfg calls = .ok (d', more)) : d'.inputs = [] := by
  induction calls generalizing d more with
  | nil =>
    rw [← (Prod.mk.inj (Except.ok.inj hr)).1]
    exact hd
  | cons call calls ih =>
    obtain ⟨d₁, batch, more, hstep, hrun, -⟩ := run_cons hr
    exact ih (inputs_step_nil hd hstep) hrun

/-- **A run keeps the invariant**, and finishes its inputs when it has calls enough. -/
theorem Inv.run (h : Inv cfg inputs plain d out bs l)
    (hno : NoOverflow (inputs.flatMap ScanInfo.visible)) {more : List (ScanInfo X C P S)}
    (hr : d.run cfg calls = .ok (d', more)) :
    ∃ bs' l', Inv cfg inputs (plain ∧ Call.partialEmit ∉ calls) d' (out ++ more) bs' l' ∧
      ((Call.advance 0 ∉ calls) → d'.inputs ≠ [] →
        d'.work l' + calls.countP Call.isAdvance ≤ d.work l) := by
  induction calls generalizing d out bs l plain more with
  | nil =>
    obtain ⟨rfl, rfl⟩ := Prod.mk.inj (Except.ok.inj hr)
    refine ⟨bs, l, ?_, fun _ _ => le_rfl⟩
    rw [List.append_nil]
    exact { h with plain := fun hp => h.plain hp.1 }
  | cons call calls ih =>
    obtain ⟨d₁, batch, more, hstep, hrun, rfl⟩ := run_cons hr
    rw [← List.append_assoc]
    cases call with
    | advance quantum =>
      obtain ⟨bs₁, l₁, h₁, -, hless⟩ := h.advance hno hstep
      obtain ⟨bs', l', h', hwork⟩ := ih h₁ hrun
      refine ⟨bs', l', { h' with plain := fun hp => h'.plain ?_ }, fun hzero hne => ?_⟩
      · exact ⟨hp.1, List.not_mem_of_not_mem_cons hp.2⟩
      · have hd : d.inputs ≠ [] := fun hd => hne (inputs_run_nil (inputs_step_nil hd hstep) hrun)
        have hquantum : 0 < quantum := by
          rw [Nat.pos_iff_ne_zero]
          rintro rfl
          exact hzero List.mem_cons_self
        have hone := hless hquantum hd
        have hrest := hwork (List.not_mem_of_not_mem_cons hzero) hne
        have hcount : (Call.advance quantum :: calls).countP Call.isAdvance =
            calls.countP Call.isAdvance + 1 := List.countP_cons_of_pos rfl
        omega
    | partialEmit =>
      obtain ⟨bs₁, l₁, h₁, hle⟩ := h.partialEmit hstep
      obtain ⟨bs', l', h', hwork⟩ := ih h₁ hrun
      refine ⟨bs', l', { h' with plain := fun hp => ?_ }, fun hzero hne => ?_⟩
      · exact absurd List.mem_cons_self hp.2
      · have hrest := hwork (List.not_mem_of_not_mem_cons hzero) hne
        have hcount : (Call.partialEmit :: calls).countP Call.isAdvance =
            calls.countP Call.isAdvance := List.countP_cons_of_neg (by decide)
        omega

/-! ## No call throws -/

/-- The inputs pass the checks of `advance`, and their certificates are of one contract. -/
def Accepted (cfg : Config C S) (inputs : List (ScanInfo X C P S)) : Prop :=
  ∀ info ∈ inputs, info.check cfg = none ∧
    ∀ c ∈ info.certificates, some (cfg.contractOf c) = (templateOf inputs).map Template.contractId

theorem certificate_mem_of_visible (h : item ∈ info.visible) :
    item.certificate ∈ info.certificates := by
  obtain ⟨p, hp, rfl⟩ := List.mem_map.mp (List.mem_filter.mp h).1
  exact (List.of_mem_zip (List.of_mem_zip hp).2).1

theorem payloadError_splitOf (hacc : Accepted cfg inputs) {b : List (Item X C P S)}
    (hb : ∀ item ∈ b, item ∈ inputs.flatMap ScanInfo.visible) :
    (splitOf cfg (templateOf inputs) b).payloadError cfg = none := by
  have hcontract : ∀ c ∈ b.map Item.certificate,
      cfg.contractOf c = ((templateOf inputs).map Template.contractId).getD 0 := by
    intro c hc
    obtain ⟨item, hitem, rfl⟩ := List.mem_map.mp hc
    obtain ⟨info, hinfo, hvisible⟩ := List.mem_flatMap.mp (hb item hitem)
    rw [← (hacc info hinfo).2 _ (certificate_mem_of_visible hvisible)]
    rfl
  rw [ScanInfo.payloadError, if_neg, if_neg]
  · rw [List.any_eq_true]
    rintro ⟨c, hc, hne⟩
    exact of_decide_eq_true hne (hcontract c hc)
  · simp [splitOf, Template.split]

theorem settle_splitOf {α : Type} (hacc : Accepted cfg inputs)
    (hb : ∀ x ∈ b, ∀ item ∈ x, item ∈ inputs.flatMap ScanInfo.visible) (a : α) :
    settle cfg (b.map (splitOf cfg (templateOf inputs))) a = .ok a := by
  cases b with
  | none => rfl
  | some x =>
    rw [settle, Option.map_some, Option.bind_some, payloadError_splitOf hacc (hb x rfl)]

theorem Inv.mem_open (h : Inv cfg inputs plain d out bs l) (hitem : item ∈ l) :
    item ∈ inputs.flatMap ScanInfo.visible := by
  rw [← h.content]
  exact List.mem_append_right _ (List.mem_append_left _ hitem)

theorem Inv.partialEmit_ok (h : Inv cfg inputs plain d out bs l) (hacc : Accepted cfg inputs) :
    ∃ r, d.coalescer.partialEmit cfg = .ok r := by
  rw [Coalescer.partialEmit, h.held.isEmpty_acc]
  split_ifs with hl
  · exact ⟨_, rfl⟩
  · rw [h.held.emitCurrent.1, h.template_eq (by simpa using hl)]
    exact ⟨_, settle_splitOf hacc (b := some l)
      (fun x hx item hitem => h.mem_open (Option.mem_some.mp hx ▸ hitem)) _⟩

theorem Inv.step_ok (h : Inv cfg inputs plain d out bs l) (hacc : Accepted cfg inputs)
    (hno : NoOverflow (inputs.flatMap ScanInfo.visible)) (call : Call) :
    ∃ r, d.step cfg call = .ok r := by
  cases call with
  | partialEmit =>
    obtain ⟨r, hr⟩ := h.partialEmit_ok hacc
    rw [Driver.step, hr]
    exact ⟨_, rfl⟩
  | advance quantum =>
    rw [Driver.step]
    cases hd : d.inputs with
    | nil => exact ⟨_, rfl⟩
    | cons info rest =>
      have hinfo := h.inputs_mem info (by simp [hd])
      have htemplate := h.template_getD hd
      obtain ⟨n, b, l', hscan, -⟩ := h.scan hno hd quantum htemplate
      show ∃ r, (d.coalescer.advance cfg info d.cursor quantum).map _ = .ok r
      rw [Coalescer.advance, (hacc info hinfo).1]
      dsimp only
      rw [hscan.batch]
      dsimp only
      rw [htemplate, settle_splitOf hacc]
      · exact ⟨_, rfl⟩
      · intro x hx item hitem
        have hmem : item ∈ l ++ d.remaining := by
          rw [Driver.remaining, hd, ← List.append_assoc, ← hscan.content]
          cases hx
          simp [hitem]
        rw [← h.content]
        exact List.mem_append_right _ hmem

/-- No call of a run on accepted inputs throws. -/
theorem Inv.run_ok (h : Inv cfg inputs plain d out bs l) (hacc : Accepted cfg inputs)
    (hno : NoOverflow (inputs.flatMap ScanInfo.visible)) (calls : List Call) :
    ∃ r, d.run cfg calls = .ok r := by
  induction calls generalizing d out bs l plain with
  | nil => exact ⟨_, rfl⟩
  | cons call calls ih =>
    obtain ⟨⟨d', batch⟩, hstep⟩ := h.step_ok hacc hno call
    have hnext : ∃ r, d'.run cfg calls = .ok r := by
      cases call with
      | advance quantum =>
        obtain ⟨_, _, h', -⟩ := h.advance hno hstep
        exact ih h'
      | partialEmit =>
        obtain ⟨_, _, h', -⟩ := h.partialEmit hstep
        exact ih h'
    obtain ⟨r, hr⟩ := hnext
    refine ⟨(r.1, batch.toList ++ r.2), ?_⟩
    rw [Driver.run, hstep]
    show (d'.run cfg calls >>= _) = _
    rw [hr]
    rfl

/-! ## The splits -/

theorem Inv.flush (h : Inv cfg inputs plain d out bs l) (hd : d.inputs = [])
    {last : List (ScanInfo X C P S)} (hf : d.coalescer.flush cfg = .ok last) :
    ∃ fs, fs = bs ++ batches (fits cfg) l [] ∧
      out ++ last = (if fs.isEmpty && !inputs.isEmpty then [[]] else fs).map
        (splitOf cfg (templateOf inputs)) := by
  obtain ⟨⟨batch, st'⟩, he, hf⟩ := map_eq_ok.mp hf
  have htemplate : d.coalescer.template = templateOf inputs := by
    rcases h.template with ht | ⟨ht, hin, -⟩
    · exact ht
    · rw [ht, ← hin, hd]
      rfl
  have hsome : (templateOf inputs).isSome = !inputs.isEmpty := by
    cases inputs <;> rfl
  refine ⟨_, rfl, ?_⟩
  rw [batches_nil_eq, ← hf]
  rcases h.held.partialEmit he with ⟨rfl, rfl, rfl⟩ | ⟨hl, rfl, rfl⟩
  · dsimp only
    rw [h.produced, htemplate, Bool.not_not, hsome, h.out, List.isEmpty_nil, if_pos rfl,
      List.append_nil]
    split_ifs with hempty
    · rw [Bool.and_eq_true, List.isEmpty_iff] at hempty
      rw [hempty.1]
      rfl
    · simp
  · have hne : l.isEmpty = false := by simpa using hl
    rw [hne, h.out, htemplate]
    simp [Coalescer.emitCurrent]

/-- What a run and the `flush` after it emit. -/
theorem emits_spec {splits : List (ScanInfo X C P S)} (h : Emits cfg inputs calls splits)
    (hno : NoOverflow (inputs.flatMap ScanInfo.visible)) :
    ∃ fs : List (List (Item X C P S)),
      splits = (if fs.isEmpty && !inputs.isEmpty then [[]] else fs).map
        (splitOf cfg (templateOf inputs)) ∧
      (∀ b ∈ fs, Packed (fits cfg) b ∧ b ≠ []) ∧
      fs.flatten = inputs.flatMap ScanInfo.visible ∧
      (Call.partialEmit ∉ calls → fs = batches (fits cfg) [] (inputs.flatMap ScanInfo.visible)) ∧
      ∀ info ∈ inputs, info.check cfg = none := by
  obtain ⟨d, out, last, hrun, hd, hflush, rfl⟩ := h
  have hstart : Inv cfg inputs True (Driver.start cfg inputs) [] [] [] := Inv.start cfg inputs
  obtain ⟨bs, l, hinv, -⟩ := hstart.run hno hrun
  obtain ⟨fs, hfs, hsplits⟩ := hinv.flush hd hflush
  have hremaining : d.remaining = [] := by
    rw [Driver.remaining, hd]
  have hlast : ∀ b ∈ batches (fits cfg) l [], b = l ∧ l ≠ [] := by
    intro b hb
    rw [batches_nil_eq] at hb
    split_ifs at hb with hl
    · cases hb
    · exact ⟨List.mem_singleton.mp hb, by simpa using hl⟩
  have hflat : (batches (fits cfg) l []).flatten = l := by
    rw [batches_nil_eq]
    split_ifs with hl
    · rw [List.isEmpty_iff.mp hl]
      rfl
    · simp
  refine ⟨fs, hsplits, ?_, ?_, ?_, ?_⟩
  · intro b hb
    rw [hfs] at hb
    rcases List.mem_append.mp hb with hb | hb
    · exact hinv.closed b hb
    · obtain ⟨rfl, hl⟩ := hlast b hb
      exact ⟨hinv.packed, hl⟩
  · rw [← hinv.content, hremaining, hfs, List.flatten_append, hflat, List.append_nil]
  · intro hplain
    rw [← hinv.plain ⟨trivial, hplain⟩, hremaining, hfs]
  · intro info hinfo
    rcases hinv.checked info hinfo with hin | hok
    · rw [hd] at hin
      cases hin
    · exact hok

/-- The sum of the budgets of a split. -/
def ScanInfo.totalBytes (s : ScanInfo X C P S) : ℕ :=
  (s.rowGroups.map RowGroup.decodedBytesBudget).sum

/-- The sum of the sizes of a string column of a split. -/
def ScanInfo.columnBytes (s : ScanInfo X C P S) (c : ℕ) : ℕ :=
  (s.rowGroups.map fun rg => rg.varchar c).sum

/-- A row group as a split has it: its dependency is bound to the source of the first input. -/
def Item.rebind (t : Option (Template S)) (item : Item X C P S) : Item X C P S :=
  { item with dependency := item.bound t }

theorem items_splitOf (t : Option (Template S)) (b : List (Item X C P S)) :
    (splitOf cfg t b).items = b.map (Item.rebind t) := by
  induction b with
  | nil => rfl
  | cons item b ih => exact congrArg (item.rebind t :: ·) ih

theorem rowGroup_items (h : info.check cfg = none) :
    info.items.map Item.rowGroup = info.rowGroups := by
  rw [ScanInfo.check] at h
  split_ifs at h with hlen
  rw [not_or, not_not, not_not] at hlen
  rw [ScanInfo.items, List.map_map]
  exact List.map_fst_zip (by simp [hlen])

theorem rowGroup_visible (h : info.check cfg = none) :
    info.visible.map Item.rowGroup = info.rowGroups.filter fun rg => rg.rowCount ≠ 0 := by
  rw [← rowGroup_items h, List.filter_map]
  rfl

/-- A batch of more than one row group keeps within the cap and the limit of the offsets. -/
theorem bounds_splitOf {b : List (Item X C P S)} (h : Packed (fits cfg) b) (t : Option (Template S))
    (hlen : 1 < (splitOf cfg t b).rowGroups.length) :
    (0 < cfg.cap → (splitOf cfg t b).totalBytes ≤ cfg.cap) ∧
      ∀ c, cfg.isVarchar.getD c false = true →
        (splitOf cfg t b).columnBytes c < cudfInt32StringsThreshold := by
  have htotal : (splitOf cfg t b).totalBytes = totalBytes b := by
    rw [ScanInfo.totalBytes, totalBytes, splitOf, Template.split, List.map_map]
    rfl
  have hcolumn (c : ℕ) : (splitOf cfg t b).columnBytes c = columnBytes c b := by
    rw [ScanInfo.columnBytes, columnBytes, splitOf, Template.split, List.map_map]
    rfl
  rw [splitOf, Template.split, List.length_map] at hlen
  rcases List.eq_nil_or_concat b with rfl | ⟨r, x, rfl⟩
  · simp at hlen
  rw [List.concat_eq_append] at hlen h htotal hcolumn ⊢
  have hr : r ≠ [] := by
    rintro rfl
    simp at hlen
  have hfits := h.last hr
  rw [fits, Bool.and_eq_true, Bool.or_eq_true, decide_eq_true_eq, decide_eq_true_eq,
    List.all_eq_true] at hfits
  refine ⟨fun hcap => ?_, fun c hc => ?_⟩
  · rw [htotal]
    exact hfits.1.resolve_left (by omega)
  · have hlt : c < cfg.isVarchar.length := by
      by_contra hge
      rw [List.getD_eq_default _ _ (by omega)] at hc
      cases hc
    have := hfits.2 c (List.mem_range.mpr hlt)
    rw [hc, Bool.not_true, Bool.false_or, decide_eq_true_eq] at this
    rw [hcolumn]
    exact this

theorem countP_splitOf (t : Option (Template S)) {fs : List (List (Item X C P S))}
    (h : ∀ b ∈ fs, b ≠ []) :
    (fs.map (splitOf cfg t)).countP (fun s => s.rowGroups.isEmpty) = 0 := by
  rw [List.countP_eq_zero]
  intro s hs
  obtain ⟨b, hb, rfl⟩ := List.mem_map.mp hs
  simpa [splitOf, Template.split] using h b hb

/-- No input has a row group with rows. -/
theorem visible_eq_nil (hcheck : ∀ info ∈ inputs, info.check cfg = none) :
    inputs.flatMap ScanInfo.visible = [] ↔
      ∀ info ∈ inputs, ∀ rg ∈ info.rowGroups, rg.rowCount = 0 := by
  rw [List.flatMap_eq_nil_iff]
  refine forall₂_congr fun info hinfo => ?_
  rw [← List.map_eq_nil_iff (f := Item.rowGroup), rowGroup_visible (hcheck info hinfo),
    List.filter_eq_nil_iff]
  simp

/-- The calls finish the inputs when there are two of `advance` for each row group and one for each
    input. -/
theorem emits_of_accepted (hacc : Accepted cfg inputs)
    (hno : NoOverflow (inputs.flatMap ScanInfo.visible))
    (hzero : Call.advance 0 ∉ calls)
    (hcalls : (inputs.map fun info => 2 * info.items.length + 1).sum ≤
      calls.countP Call.isAdvance) : ∃ splits, Emits cfg inputs calls splits := by
  have hstart : Inv cfg inputs True (Driver.start cfg inputs) [] [] [] := Inv.start cfg inputs
  obtain ⟨⟨d, out⟩, hrun⟩ := hstart.run_ok hacc hno calls
  obtain ⟨bs, l, hinv, hwork⟩ := hstart.run hno hrun
  have hd : d.inputs = [] := by
    by_contra hne
    have hle := hwork hzero hne
    have hbefore : (Driver.start cfg inputs).work ([] : List (Item X C P S)) =
        (inputs.map fun info => 2 * info.items.length + 1).sum := by
      cases inputs with
      | nil => rfl
      | cons info rest => simp [Driver.work, Driver.start, Native.work]
    have hpos : 0 < d.work l := by
      rw [Driver.work]
      split
      · next hnil => exact absurd hnil hne
      · omega
    omega
  obtain ⟨r, hr⟩ := hinv.partialEmit_ok hacc
  have hflush : ∃ last, d.coalescer.flush cfg = .ok last := by
    rw [Coalescer.flush, hr]
    exact ⟨_, rfl⟩
  obtain ⟨last, hlast⟩ := hflush
  exact ⟨out ++ last, d, out, last, hrun, hd, hlast, rfl⟩

/-- **The splits of a native scan.** For inputs whose sizes do not overflow, whatever the quanta of
    the calls of `advance` and wherever `partial_emit` is called: the splits hold, in order, the row
    groups that have rows, each with its own certificate and dependency; a split of more than one
    keeps within the cap and, in each string column, under the limit of the offsets; without
    `partial_emit` the splits do not depend on the calls; and there is one empty split exactly when
    there are inputs and no row group has rows. Calls on accepted inputs do not throw, and enough of
    them finish the inputs. -/
theorem native_splits (cfg : Config C S) (inputs : List (ScanInfo X C P S))
    (hno : NoOverflow (inputs.flatMap ScanInfo.visible)) :
    (∀ calls splits, Emits cfg inputs calls splits →
      splits.flatMap ScanInfo.rowGroups =
        inputs.flatMap (fun info => info.rowGroups.filter fun rg => rg.rowCount ≠ 0) ∧
      (∀ s ∈ splits, s.certificates.length = s.rowGroups.length ∧
        s.dependencies.length = s.rowGroups.length) ∧
      splits.flatMap ScanInfo.items =
        (inputs.flatMap ScanInfo.visible).map (Item.rebind (templateOf inputs)) ∧
      (∀ s ∈ splits, 1 < s.rowGroups.length →
        (0 < cfg.cap → s.totalBytes ≤ cfg.cap) ∧
        ∀ c, cfg.isVarchar.getD c false = true → s.columnBytes c < cudfInt32StringsThreshold) ∧
      splits.countP (fun s => s.rowGroups.isEmpty) =
        if inputs ≠ [] ∧ ∀ info ∈ inputs, ∀ rg ∈ info.rowGroups, rg.rowCount = 0 then 1 else 0) ∧
    (∀ calls calls' splits splits', Emits cfg inputs calls splits → Emits cfg inputs calls' splits' →
      Call.partialEmit ∉ calls → Call.partialEmit ∉ calls' → splits = splits') ∧
    (Accepted cfg inputs → ∀ calls, Call.advance 0 ∉ calls →
      (inputs.map fun info => 2 * info.items.length + 1).sum ≤ calls.countP Call.isAdvance →
      ∃ splits, Emits cfg inputs calls splits) := by
  refine ⟨fun calls splits h => ?_, fun calls calls' splits splits' h h' hp hp' => ?_,
    fun hacc calls hzero hcalls => emits_of_accepted hacc hno hzero hcalls⟩
  · obtain ⟨fs, hsplits, hpacked, hcontent, -, hcheck⟩ := emits_spec h hno
    set gs := if fs.isEmpty && !inputs.isEmpty then [[]] else fs with hgs
    have hflat : gs.flatten = inputs.flatMap ScanInfo.visible := by
      rw [← hcontent, hgs]
      split_ifs with hempty
      · rw [Bool.and_eq_true, List.isEmpty_iff] at hempty
        rw [hempty.1]
        rfl
      · rfl
    have hpackedAll : ∀ b ∈ gs, Packed (fits cfg) b := by
      rw [hgs]
      split_ifs
      · intro b hb
        rw [List.mem_singleton.mp hb]
        exact packed_nil
      · exact fun b hb => (hpacked b hb).1
    refine ⟨?_, ?_, ?_, ?_, ?_⟩
    · calc splits.flatMap ScanInfo.rowGroups = gs.flatten.map Item.rowGroup := by
            rw [hsplits, List.flatMap_map, List.map_flatten, List.flatMap_def]
            rfl
        _ = inputs.flatMap fun info => info.visible.map Item.rowGroup := by
            rw [hflat, List.map_flatMap]
        _ = _ := List.flatMap_congr fun info hinfo => rowGroup_visible (hcheck info hinfo)
    · intro s hs
      rw [hsplits] at hs
      obtain ⟨b, -, rfl⟩ := List.mem_map.mp hs
      simp [splitOf, Template.split]
    · rw [← hflat, hsplits, List.map_flatten, List.flatMap_map, List.flatMap_def]
      exact congrArg List.flatten (List.map_congr_left fun b _ => items_splitOf _ b)
    · intro s hs
      rw [hsplits] at hs
      obtain ⟨b, hb, rfl⟩ := List.mem_map.mp hs
      exact bounds_splitOf (hpackedAll b hb) _
    · have hnil : fs = [] ↔ ∀ info ∈ inputs, ∀ rg ∈ info.rowGroups, rg.rowCount = 0 := by
        rw [← visible_eq_nil hcheck, ← hcontent]
        refine ⟨fun h => by rw [h, List.flatten_nil], fun hflat => ?_⟩
        by_contra hne
        obtain ⟨b, hb⟩ := List.exists_mem_of_ne_nil fs hne
        exact (hpacked b hb).2 (List.flatten_eq_nil_iff.mp hflat b hb)
      rw [hsplits, hgs]
      split_ifs with hempty hrows hrows
      · rfl
      · rw [Bool.and_eq_true, List.isEmpty_iff, Bool.not_eq_true', List.isEmpty_eq_false_iff]
          at hempty
        exact absurd ⟨hempty.2, hnil.mp hempty.1⟩ hrows
      · exact absurd (by simp [hnil.mpr hrows.2, hrows.1]) hempty
      · exact countP_splitOf _ fun b hb => (hpacked b hb).2
  · obtain ⟨fs, hsplits, -, -, hplain, -⟩ := emits_spec h hno
    obtain ⟨fs', hsplits', -, -, hplain', -⟩ := emits_spec h' hno
    rw [hsplits, hsplits', hplain hp, hplain' hp']

/-- Two row groups with rows, over the cap together, and one without. -/
def threeRowGroups : ScanInfo Unit ℕ Unit ℕ :=
  let rowGroup (i rows : ℕ) : RowGroup Unit :=
    { rowGroupIndex := i, rowGroupStart := 10 * i, rowCount := rows, columns := ()
      decodedBytesBudget := 6, varcharBytesPerCol := [] }
  { rowGroups := [rowGroup 0 8, rowGroup 1 0, rowGroup 2 3]
    certificates := [7, 7, 7]
    dependencies := List.replicate 3 { datasource := some 1, proof := () }
    datasource := some 1, blockManager := 0, contractId := 7 }

def capOfTen : Config ℕ ℕ :=
  { cap := 10, isVarchar := [], ioObject := id, duplicate := id, contractOf := id }

theorem native_splits_threeRowGroups :
    NoOverflow ([threeRowGroups].flatMap ScanInfo.visible) ∧
      ∃ splits, Emits capOfTen [threeRowGroups] (List.replicate 7 (.advance 1)) splits ∧
        splits.flatMap ScanInfo.rowGroups =
          threeRowGroups.rowGroups.filter (fun rg => rg.rowCount ≠ 0) := by
  have hno : NoOverflow ([threeRowGroups].flatMap ScanInfo.visible) :=
    ⟨by decide, fun c => by simp [threeRowGroups, ScanInfo.visible, ScanInfo.items, Item.visible,
      columnBytes, RowGroup.varchar]⟩
  have hacc : Accepted capOfTen [threeRowGroups] := by
    unfold Accepted
    decide
  obtain ⟨hsplits, -, hrun⟩ := native_splits capOfTen [threeRowGroups] hno
  obtain ⟨splits, h⟩ := hrun hacc (List.replicate 7 (.advance 1)) (by decide) (by decide)
  exact ⟨hno, splits, h, (hsplits _ splits h).1.trans (List.append_nil _)⟩

end Sirius.Scan.Native
