import Sirius.Common.Run
import Sirius.Common.Table

/-!
# Reuse of keep-masks across queries

Model of src/scan_manager/mvcc_mask_cache.hpp and of the steps of the mask preparation
around it (src/scan_manager/sirius_scan_manager.cpp:103-109, 1739-1795): a query captures
the key of its snapshot, probes the cache of the pinned entry, builds its masks on a miss
and publishes them if the key allows it.

DuckDB is modelled as far as visibility goes. A row of the table has the stamp of the
transaction that inserted it and of the one that deleted it, which is the transaction
itself until it commits. Start times and commit ids come from one counter, and a commit
publishes `last_commit` in the step that takes its id. A transaction sees what was
committed below its start time, and its own writes.

The entry pins the first rows of the table, at any moment before the first query. The
masks of a query are read row by row, so commits may land between any two rows. A
transaction runs one statement at a time: it neither writes nor commits between the
capture of a key and the end of the probe or the build.

* `served_own_masks`: in every run, every query is served the masks of its own snapshot.
-/

namespace Sirius.ScanManager.MaskCache

open Sirius.Common

/-! ## The table -/

/-- Who wrote a version: a transaction under way, or a commit. -/
inductive Stamp where
  | pending (txn : ℕ)
  | committed (id : ℕ)
  deriving DecidableEq, Repr

/-- A row, with the stamps of its insertion and of its deletion. -/
structure Row where
  inserted : Stamp
  deleted : Option Stamp := none
  deriving DecidableEq, Repr

/-- A row is there for whoever sees its insertion and does not see a deletion. -/
def Row.visible (sees : Stamp → Bool) (row : Row) : Bool :=
  sees row.inserted && !row.deleted.any sees

/-- What a transaction sees: the commits below its start time and its own writes. -/
def snapshot (txn startTime : ℕ) : Stamp → Bool
  | .pending t => decide (t = txn)
  | .committed id => decide (id < startTime)

/-- What the commits up to `last` leave. -/
def upTo (last : ℕ) : Stamp → Bool
  | .pending _ => false
  | .committed id => decide (id ≤ last)

/-- The keep-mask of the first `pinned` rows. -/
def maskOf (sees : Stamp → Bool) (pinned : ℕ) (rows : List Row) : List Bool :=
  (rows.take pinned).map (Row.visible sees)

/-- The stamps of `txn` become those of its commit. -/
def Stamp.commit (txn id : ℕ) : Stamp → Stamp
  | .pending t => if t = txn then .committed id else .pending t
  | .committed i => .committed i

def Row.commit (txn id : ℕ) (row : Row) : Row :=
  ⟨row.inserted.commit txn id, row.deleted.map (Stamp.commit txn id)⟩

/-! ## The cache -/

/-- `mvcc_mask_snapshot_key`. -/
structure SnapshotKey where
  lastCommit : ℕ
  startTime : ℕ
  changesMade : Bool
  deriving DecidableEq, Repr

/-- `mvcc_mask_cache_publishable` (mvcc_mask_cache.hpp:50-53). -/
def mvccMaskCachePublishable (built : SnapshotKey) : Bool :=
  !built.changesMade && decide (built.startTime ≥ built.lastCommit)

/-- `mvcc_mask_cache_reusable` (mvcc_mask_cache.hpp:59-64). -/
def mvccMaskCacheReusable (built query : SnapshotKey) : Bool :=
  mvccMaskCachePublishable built && !query.changesMade &&
    decide (query.lastCommit = built.lastCommit) && decide (query.startTime ≥ built.lastCommit)

/-! ## The system -/

/-- A transaction under way. -/
structure Txn where
  startTime : ℕ
  changesMade : Bool := false
  deriving DecidableEq, Repr

/-- Where a query stands: it has its key, it reads its masks, it has built them, or it is
    through. -/
inductive Query where
  | captured (txn : ℕ) (key : SnapshotKey)
  | building (txn : ℕ) (key : SnapshotKey) (bits : List Bool)
  | built (key : SnapshotKey) (masks : List Bool)
  | done
  deriving DecidableEq, Repr

/-- The query is between the capture of its key and the end of its probe or build. -/
def Query.Busy (txn : ℕ) : Query → Prop
  | .captured t _ => t = txn
  | .building t _ _ => t = txn
  | _ => False

instance (txn : ℕ) (q : Query) : Decidable (q.Busy txn) :=
  match q with
  | .captured t _ => inferInstanceAs (Decidable (t = txn))
  | .building t _ _ => inferInstanceAs (Decidable (t = txn))
  | .built _ _ => .isFalse id
  | .done => .isFalse id

/-- The database, the queries and the cache of one pinned entry of `pinned` rows. `cache`
    is the key and the set of a valid `mvcc_mask_version_cache`, and `served` has, for each
    query that got masks, those masks and the ones of its own snapshot at that moment. -/
structure System where
  counter : ℕ
  lastCommit : ℕ
  rows : List Row
  pinned : ℕ
  txns : Table ℕ Txn := ∅
  queries : Table ℕ Query := ∅
  cache : Option (SnapshotKey × List Bool) := none
  served : List (List Bool × List Bool) := []

namespace System

/-- The transaction runs a statement. -/
def Busy (s : System) (txn : ℕ) : Prop := ∃ e ∈ s.queries.entries, e.2.Busy txn

instance (s : System) (txn : ℕ) : Decidable (s.Busy txn) :=
  inferInstanceAs (Decidable (∃ e ∈ s.queries.entries, e.2.Busy txn))

/-- The masks that the snapshot of a transaction builds. -/
def ownMasks (s : System) (txn startTime : ℕ) : List Bool :=
  maskOf (snapshot txn startTime) s.pinned s.rows

def setQuery (s : System) (q : ℕ) (x : Query) : System :=
  { s with queries := s.queries.insert q x }

/-- The masks are handed to the query of a transaction. -/
def serve (s : System) (txn startTime : ℕ) (masks : List Bool) : System :=
  { s with served := (masks, s.ownMasks txn startTime) :: s.served }

inductive Action where
  | start (txn : ℕ)
  | insert (txn : ℕ)
  | delete (txn row : ℕ)
  | commit (txn : ℕ)
  | pin (n : ℕ)
  | capture (q txn : ℕ)
  | probe (q : ℕ)
  | readRow (q : ℕ)
  | finish (q : ℕ)
  | publish (q : ℕ)
  deriving DecidableEq, Repr

/-- A write of a transaction that runs no statement. -/
def write (s : System) (txn : ℕ) (rows : List Row) : Option System :=
  match s.txns.lookup txn with
  | some x =>
    if s.Busy txn then none
    else some { s with rows, txns := s.txns.insert txn { x with changesMade := true } }
  | none => none

/-- One step of anybody. -/
def step (s : System) : Action → Option System
  | .start txn =>
    if (s.txns.lookup txn).isSome then none
    else some { s with
      counter := s.counter + 1
      txns := s.txns.insert txn { startTime := s.counter } }
  | .insert txn => s.write txn (s.rows ++ [⟨.pending txn, none⟩])
  | .delete txn i =>
    match s.rows[i]? with
    | some row =>
      if row.deleted.isSome then none
      else s.write txn (s.rows.set i { row with deleted := some (.pending txn) })
    | none => none
  | .commit txn =>
    if (s.txns.lookup txn).isNone ∨ s.Busy txn then none
    else some { s with
      counter := s.counter + 1
      lastCommit := s.counter
      rows := s.rows.map (Row.commit txn s.counter)
      txns := s.txns.erase txn }
  | .pin n =>
    if n ≤ s.rows.length ∧ s.queries.entries = [] ∧ s.cache = none then
      some { s with pinned := n }
    else none
  | .capture q txn =>
    match s.txns.lookup txn with
    | some x =>
      if (s.queries.lookup q).isSome then none
      else some (s.setQuery q (.captured txn ⟨s.lastCommit, x.startTime, x.changesMade⟩))
    | none => none
  | .probe q =>
    match s.queries.lookup q with
    | some (.captured txn key) =>
      match s.cache with
      | some (built, masks) =>
        if mvccMaskCacheReusable built key then
          some ((s.serve txn key.startTime masks).setQuery q .done)
        else some (s.setQuery q (.building txn key []))
      | none => some (s.setQuery q (.building txn key []))
    | _ => none
  | .readRow q =>
    match s.queries.lookup q with
    | some (.building txn key bits) =>
      if bits.length < s.pinned then
        match s.rows[bits.length]? with
        | some row =>
          some (s.setQuery q
            (.building txn key (bits ++ [row.visible (snapshot txn key.startTime)])))
        | none => none
      else none
    | _ => none
  | .finish q =>
    match s.queries.lookup q with
    | some (.building txn key bits) =>
      if bits.length = s.pinned then
        some ((s.serve txn key.startTime bits).setQuery q (.built key bits))
      else none
    | _ => none
  | .publish q =>
    match s.queries.lookup q with
    | some (.built key masks) =>
      let s := s.setQuery q .done
      some (if mvccMaskCachePublishable key then { s with cache := some (key, masks) } else s)
    | _ => none

/-- A row of the table has the stamp. -/
def Has (s : System) (stamp : Stamp) : Prop :=
  ∃ row ∈ s.rows, row.inserted = stamp ∨ row.deleted = some stamp

/-- A database that was just opened: its rows are committed, and nothing is under way. -/
structure Opened (s : System) : Prop where
  clock : s.lastCommit < s.counter
  stamps : ∀ stamp, s.Has stamp → ∃ id ≤ s.lastCommit, stamp = .committed id
  pinned : s.pinned ≤ s.rows.length
  txns : s.txns = ∅
  queries : s.queries = ∅
  cache : s.cache = none
  served : s.served = []

end System

/-! ## Masks of a changing table -/

/-- Views that agree on the stamps of the rows have the same masks. -/
theorem maskOf_congr {sees sees' : Stamp → Bool} {n : ℕ} {rows : List Row}
    (h : ∀ row ∈ rows, ∀ stamp, row.inserted = stamp ∨ row.deleted = some stamp →
      sees stamp = sees' stamp) :
    maskOf sees n rows = maskOf sees' n rows := by
  unfold maskOf
  apply List.map_congr_left
  intro row hrow
  have hmem := List.mem_of_mem_take hrow
  have hdel : row.deleted.any sees = row.deleted.any sees' := by
    cases hd : row.deleted with
    | none => rfl
    | some d => exact h row hmem d (.inr hd)
  unfold Row.visible
  rw [h row hmem _ (.inl rfl), hdel]

/-- A row beyond the pinned ones does not matter. -/
theorem maskOf_append {n : ℕ} {rows : List Row} (h : n ≤ rows.length) (sees : Stamp → Bool)
    (row : Row) : maskOf sees n (rows ++ [row]) = maskOf sees n rows := by
  unfold maskOf
  rw [List.take_append_of_le_length h]

variable {sees : Stamp → Bool}

/-- A row that looks the same after it was replaced does not matter. -/
theorem maskOf_set {rows : List Row} {i : ℕ} {row row' : Row} (hi : rows[i]? = some row)
    (h : row'.visible sees = row.visible sees) (n : ℕ) :
    maskOf sees n (rows.set i row') = maskOf sees n rows := by
  unfold maskOf
  rw [List.map_take, List.map_take, List.map_set, h]
  congr 1
  apply List.ext_getElem?
  intro j
  rw [List.getElem?_set]
  split_ifs with hij hlt
  · subst hij
    rw [List.getElem?_map, hi]
    rfl
  · subst hij
    rw [List.getElem?_eq_none (by omega)]
  · rfl

/-- A commit does not matter to a view that sees neither the transaction nor the commit. -/
theorem Row.visible_commit {txn id : ℕ} (hp : sees (.pending txn) = false)
    (hc : sees (.committed id) = false) (row : Row) :
    (row.commit txn id).visible sees = row.visible sees := by
  have hstamp : ∀ stamp : Stamp, sees (stamp.commit txn id) = sees stamp := by
    rintro (t | i)
    · simp only [Stamp.commit]
      split_ifs with ht
      · rw [ht, hp, hc]
      · rfl
    · rfl
  unfold Row.visible Row.commit
  rw [hstamp]
  cases row.deleted with
  | none => rfl
  | some d => simp only [Option.map_some, Option.any_some, hstamp]

theorem maskOf_commit {txn id : ℕ} (hp : sees (.pending txn) = false)
    (hc : sees (.committed id) = false) (n : ℕ) (rows : List Row) :
    maskOf sees n (rows.map (Row.commit txn id)) = maskOf sees n rows := by
  unfold maskOf
  rw [← List.map_take, List.map_map]
  apply List.map_congr_left
  intro row _
  exact Row.visible_commit hp hc row

/-! ## The invariant -/

namespace System

/-- The key of a query of `txn` that is under way still describes its transaction. A commit
    that the key does not know came after the start of the transaction. -/
structure Current (s : System) (txn : ℕ) (key : SnapshotKey) : Prop where
  txn : s.txns.lookup txn = some ⟨key.startTime, key.changesMade⟩
  known : key.lastCommit ≤ s.lastCommit
  fresh : key.lastCommit ≠ key.startTime
  commits : ∀ id, s.Has (.committed id) → id ≤ key.lastCommit ∨ key.startTime < id

/-- Masks under a key that may be published are those of its last commit. -/
def Sound (s : System) (key : SnapshotKey) (masks : List Bool) : Prop :=
  mvccMaskCachePublishable key →
    key.lastCommit ≤ s.lastCommit ∧ masks = maskOf (upTo key.lastCommit) s.pinned s.rows

def QueryOk (s : System) : Query → Prop
  | .captured txn key => s.Current txn key
  | .building txn key bits =>
    s.Current txn key ∧ bits = (s.ownMasks txn key.startTime).take bits.length
  | .built key masks => s.Sound key masks
  | .done => True

structure Inv (s : System) : Prop where
  clock : s.lastCommit < s.counter
  commits : ∀ id, s.Has (.committed id) → id ≤ s.lastCommit
  writers : ∀ t, s.Has (.pending t) → ∃ x, s.txns.lookup t = some x ∧ x.changesMade = true
  started : ∀ t x, s.txns.lookup t = some x → x.startTime < s.counter ∧ s.lastCommit ≠ x.startTime
  pinned : s.pinned ≤ s.rows.length
  queries : ∀ q x, s.queries.lookup q = some x → s.QueryOk x
  cache : ∀ e ∈ s.cache, s.Sound e.1 e.2
  served : ∀ p ∈ s.served, p.1 = p.2

theorem Opened.inv {s : System} (h : s.Opened) : s.Inv where
  clock := h.clock
  commits id hid := by
    obtain ⟨i, hi, heq⟩ := h.stamps _ hid
    cases heq
    exact hi
  writers t ht := by
    obtain ⟨i, -, heq⟩ := h.stamps _ ht
    cases heq
  started t x hx := by
    rw [h.txns] at hx
    cases hx
  pinned := h.pinned
  queries q x hx := by
    rw [h.queries] at hx
    cases hx
  cache e he := by
    rw [h.cache] at he
    cases he
  served p hp := by
    rw [h.served] at hp
    cases hp

variable {key : SnapshotKey}

/-- A snapshot without writes of its own that covers the last commit of its key sees just
    the commits up to that one. -/
theorem Current.ownMasks {s : System} {txn : ℕ} (hinv : s.Inv) (h : s.Current txn key)
    (hclean : key.changesMade = false) (hcovers : key.lastCommit ≤ key.startTime) :
    s.ownMasks txn key.startTime = maskOf (upTo key.lastCommit) s.pinned s.rows := by
  apply maskOf_congr
  rintro row hrow (t | id) hstamp
  · -- a row that the transaction itself wrote would have set `changesMade`
    obtain ⟨x, hx, hmade⟩ := hinv.writers t ⟨row, hrow, hstamp⟩
    simp only [snapshot, upTo, decide_eq_false_iff_not]
    rintro rfl
    rw [h.txn] at hx
    cases hx
    rw [hclean] at hmade
    cases hmade
  · have hcommit := h.commits id ⟨row, hrow, hstamp⟩
    have hfresh := h.fresh
    simp only [snapshot, upTo, decide_eq_decide]
    omega

/-! ## Steps of the transactions -/

/-- A step of transaction `t`, as everybody else can tell. -/
structure Moved (s s' : System) (t : ℕ) : Prop where
  pinned : s'.pinned = s.pinned
  queries : s'.queries = s.queries
  cache : s'.cache = s.cache
  served : s'.served = s.served
  lastCommit : s.lastCommit ≤ s'.lastCommit
  others : ∀ u ≠ t, s'.txns.lookup u = s.txns.lookup u
  commits : ∀ id, s'.Has (.committed id) → s.Has (.committed id) ∨ s.counter ≤ id
  masks : ∀ sees : Stamp → Bool, sees (.pending t) = false →
    (∀ id ≥ s.counter, sees (.committed id) = false) →
    maskOf sees s.pinned s'.rows = maskOf sees s.pinned s.rows

variable {s s' : System} {t : ℕ}

theorem Moved.current (h : Moved s s' t) (hinv : s.Inv) {u : ℕ} (hu : u ≠ t)
    (hk : s.Current u key) : s'.Current u key where
  txn := (h.others u hu).trans hk.txn
  known := hk.known.trans h.lastCommit
  fresh := hk.fresh
  commits id hid := by
    have hstart := (hinv.started u _ hk.txn).1
    rcases h.commits id hid with hold | hnew
    · exact hk.commits id hold
    · exact .inr (hstart.trans_le hnew)

/-- What another transaction reads stays the same. -/
theorem Moved.ownMasks (h : Moved s s' t) (hinv : s.Inv) {u : ℕ} (hu : u ≠ t)
    (hk : s.Current u key) : s'.ownMasks u key.startTime = s.ownMasks u key.startTime := by
  have hstart := (hinv.started u _ hk.txn).1
  unfold System.ownMasks
  rw [h.pinned]
  apply h.masks
  · simp only [snapshot, decide_eq_false_iff_not]
    exact fun heq => hu heq.symm
  · intro id hid
    simp only [snapshot, decide_eq_false_iff_not]
    exact Nat.not_lt.mpr (hstart.le.trans hid)

variable {masks : List Bool}

/-- What was committed before stays the same. -/
theorem Moved.sound (h : Moved s s' t) (hinv : s.Inv)
    (hs : s.Sound key masks) : s'.Sound key masks := by
  intro hpub
  obtain ⟨hknown, hmasks⟩ := hs hpub
  refine ⟨hknown.trans h.lastCommit, hmasks.trans ?_⟩
  rw [h.pinned]
  refine (h.masks _ rfl ?_).symm
  intro id hid
  have hclock := hinv.clock
  simp only [upTo, decide_eq_false_iff_not]
  omega

theorem Moved.queryOk (h : Moved s s' t) (hinv : s.Inv) {x : Query} (hidle : ¬x.Busy t)
    (hx : s.QueryOk x) : s'.QueryOk x := by
  cases x with
  | captured u key => exact h.current hinv hidle hx
  | building u key bits =>
    refine ⟨h.current hinv hidle hx.1, ?_⟩
    rw [h.ownMasks hinv hidle hx.1]
    exact hx.2
  | built key masks => exact h.sound hinv hx
  | done => trivial

/-- A step of a transaction that runs no statement keeps what is known of the queries, the
    cache and the masks served. -/
theorem Moved.inv (h : Moved s s' t) (hinv : s.Inv)
    (hidle : ∀ q x, s.queries.lookup q = some x → ¬x.Busy t) (clock : s'.lastCommit < s'.counter)
    (commits : ∀ id, s'.Has (.committed id) → id ≤ s'.lastCommit)
    (writers : ∀ u, s'.Has (.pending u) → ∃ x, s'.txns.lookup u = some x ∧ x.changesMade = true)
    (started : ∀ u x, s'.txns.lookup u = some x →
      x.startTime < s'.counter ∧ s'.lastCommit ≠ x.startTime)
    (length : s.rows.length ≤ s'.rows.length) : s'.Inv where
  clock := clock
  commits := commits
  writers := writers
  started := started
  pinned := by
    rw [h.pinned]
    exact hinv.pinned.trans length
  queries q x hx := by
    rw [h.queries] at hx
    exact h.queryOk hinv (hidle q x hx) (hinv.queries q x hx)
  cache e he := by
    rw [h.cache] at he
    exact h.sound hinv (hinv.cache e he)
  served p hp := by
    rw [h.served] at hp
    exact hinv.served p hp

theorem idle_of_not_busy (h : ¬s.Busy t) (q : ℕ) (x : Query) (hx : s.queries.lookup q = some x) :
    ¬x.Busy t :=
  fun hbusy => h ⟨⟨q, x⟩, Table.mem_entries.mpr hx, hbusy⟩

/-- A statement under way belongs to a transaction under way. -/
theorem Inv.idle_of_lookup (hinv : s.Inv) (h : s.txns.lookup t = none) (q : ℕ) (x : Query)
    (hx : s.queries.lookup q = some x) : ¬x.Busy t := by
  have hok := hinv.queries q x hx
  intro hbusy
  cases x with
  | captured u key =>
    cases hbusy
    exact absurd (h.symm.trans hok.txn) nofun
  | building u key bits =>
    cases hbusy
    exact absurd (h.symm.trans hok.1.txn) nofun
  | built key masks => exact hbusy
  | done => exact hbusy

theorem Inv.start (hinv : s.Inv) (h : s.step (.start t) = some s') : s'.Inv := by
  simp only [step] at h
  split_ifs at h with hsome
  cases h
  have hnone : s.txns.lookup t = none := by simpa using hsome
  have hmoved : Moved s { s with
      counter := s.counter + 1
      txns := s.txns.insert t { startTime := s.counter } } t := by
    refine ⟨rfl, rfl, rfl, rfl, le_rfl, ?_, fun id hid => .inl hid, fun sees _ _ => rfl⟩
    intro u hu
    rw [Table.lookup_insert_eq, if_neg hu]
  refine hmoved.inv hinv (hinv.idle_of_lookup hnone) (hinv.clock.trans (Nat.lt_succ_self _))
    hinv.commits ?_ ?_ le_rfl
  · intro u hu
    obtain ⟨x, hx, hmade⟩ := hinv.writers u hu
    refine ⟨x, ?_, hmade⟩
    rw [Table.lookup_insert_eq, if_neg (by rintro rfl; cases hnone.symm.trans hx)]
    exact hx
  · intro u x hx
    have hclock := hinv.clock
    rcases Table.lookup_insert_cases hx with ⟨rfl, rfl⟩ | ⟨-, hx0⟩
    · exact ⟨Nat.lt_succ_self _, hclock.ne⟩
    · obtain ⟨hlt, hne⟩ := hinv.started u x hx0
      exact ⟨hlt.trans (Nat.lt_succ_self _), hne⟩

/-- A write of the transaction that nobody else sees. -/
theorem Inv.write {rows : List Row} (hinv : s.Inv) (h : s.write t rows = some s')
    (hstamps : ∀ stamp, { s with rows }.Has stamp → stamp = .pending t ∨ s.Has stamp)
    (hlength : s.rows.length ≤ rows.length)
    (hmasks : ∀ sees : Stamp → Bool, sees (.pending t) = false →
      maskOf sees s.pinned rows = maskOf sees s.pinned s.rows) : s'.Inv := by
  simp only [System.write] at h
  split at h
  · next x hx =>
    split_ifs at h with hbusy
    cases h
    have hcommits : ∀ id, { s with rows }.Has (.committed id) → s.Has (.committed id) :=
      fun id hid => (hstamps _ hid).resolve_left nofun
    have hmoved : Moved s { s with
        rows
        txns := s.txns.insert t { x with changesMade := true } } t := by
      refine ⟨rfl, rfl, rfl, rfl, le_rfl, ?_, fun id hid => .inl (hcommits id hid),
        fun sees hsees _ => hmasks sees hsees⟩
      intro u hu
      rw [Table.lookup_insert_eq, if_neg hu]
    refine hmoved.inv hinv (idle_of_not_busy hbusy) hinv.clock
      (fun id hid => hinv.commits id (hcommits id hid)) ?_ ?_ hlength
    · intro u hu
      rw [Table.lookup_insert_eq]
      split_ifs with hut
      · exact ⟨_, rfl, rfl⟩
      · rcases hstamps _ hu with heq | hold
        · cases heq
          exact absurd rfl hut
        · exact hinv.writers u hold
    · exact Table.forall_lookup_insert (hinv.started t x hx) hinv.started
  · cases h

theorem Inv.insert (hinv : s.Inv) (h : s.step (.insert t) = some s') : s'.Inv := by
  refine hinv.write h ?_ ?_ ?_
  · rintro stamp ⟨row, hrow, hstamp⟩
    rcases List.mem_append.mp hrow with hold | hnew
    · exact .inr ⟨row, hold, hstamp⟩
    · rw [List.mem_singleton.mp hnew] at hstamp
      rcases hstamp with hins | hdel
      · exact .inl hins.symm
      · cases hdel
  · rw [List.length_append]
    exact Nat.le_add_right _ _
  · intro sees _
    exact maskOf_append hinv.pinned sees _

theorem Inv.delete {i : ℕ} (hinv : s.Inv) (h : s.step (.delete t i) = some s') : s'.Inv := by
  simp only [step] at h
  split at h
  · next row hrow =>
    split_ifs at h with hdeleted
    have hlive : row.deleted = none := by simpa using hdeleted
    refine hinv.write h ?_ ?_ ?_
    · rintro stamp ⟨row', hrow', hstamp⟩
      rcases List.mem_or_eq_of_mem_set hrow' with hold | rfl
      · exact .inr ⟨row', hold, hstamp⟩
      · rcases hstamp with hins | hdel
        · exact .inr ⟨row, List.mem_of_getElem? hrow, .inl hins⟩
        · exact .inl (Option.some.inj hdel).symm
    · rw [List.length_set]
    · intro sees hsees
      apply maskOf_set hrow
      simp only [Row.visible, hlive, Option.any_some, Option.any_none, hsees]
  · cases h

theorem Has.of_commit {id : ℕ} {stamp : Stamp}
    (h : { s with rows := s.rows.map (Row.commit t id) }.Has stamp) :
    (stamp = .committed id ∨ s.Has stamp) ∧ stamp ≠ .pending t := by
  obtain ⟨row', hrow', hstamp⟩ := h
  obtain ⟨row, hrow, rfl⟩ := List.mem_map.mp hrow'
  have hof : ∀ old : Stamp, s.Has old → old.commit t id = stamp →
      (stamp = .committed id ∨ s.Has stamp) ∧ stamp ≠ .pending t := by
    rintro (u | i) hold rfl
    · simp only [Stamp.commit]
      split_ifs with hu
      · exact ⟨.inl rfl, nofun⟩
      · refine ⟨.inr hold, fun heq => hu ?_⟩
        cases heq
        rfl
    · exact ⟨.inr hold, nofun⟩
  rcases hstamp with hins | hdel
  · exact hof _ ⟨row, hrow, .inl rfl⟩ hins
  · obtain ⟨old, hold, heq⟩ := Option.map_eq_some_iff.mp hdel
    exact hof _ ⟨row, hrow, .inr hold⟩ heq

theorem Inv.commit (hinv : s.Inv) (h : s.step (.commit t) = some s') : s'.Inv := by
  simp only [step] at h
  split_ifs at h with hcond
  cases h
  obtain ⟨-, hbusy⟩ := not_or.mp hcond
  have hmoved : Moved s { s with
      counter := s.counter + 1
      lastCommit := s.counter
      rows := s.rows.map (Row.commit t s.counter)
      txns := s.txns.erase t } t := by
    refine ⟨rfl, rfl, rfl, rfl, hinv.clock.le, ?_, ?_, ?_⟩
    · intro u hu
      rw [Table.lookup_erase_eq, if_neg hu]
    · intro id hid
      rcases (Has.of_commit hid).1 with heq | hold
      · cases heq
        exact .inr le_rfl
      · exact .inl hold
    · intro sees hp hc
      exact maskOf_commit hp (hc _ le_rfl) _ _
  refine hmoved.inv hinv (idle_of_not_busy hbusy) (Nat.lt_succ_self _) ?_ ?_ ?_ ?_
  · intro id hid
    rcases (Has.of_commit hid).1 with heq | hold
    · cases heq
      exact le_rfl
    · exact (hinv.commits id hold).trans hinv.clock.le
  · intro u hu
    obtain ⟨hor, hne⟩ := Has.of_commit hu
    obtain ⟨x, hx, hmade⟩ := hinv.writers u (hor.resolve_left nofun)
    refine ⟨x, ?_, hmade⟩
    rw [Table.lookup_erase_eq, if_neg (by rintro rfl; exact hne rfl)]
    exact hx
  · intro u x hx
    have hlt := (hinv.started u x (Table.lookup_of_erase hx).2).1
    exact ⟨hlt.trans (Nat.lt_succ_self _), hlt.ne'⟩
  · rw [List.length_map]

/-! ## Steps of the queries -/

/-- What is known of a query depends on the database and the pinned rows only. -/
theorem QueryOk.of_same {x : Query} (hx : s.QueryOk x) (hlast : s'.lastCommit = s.lastCommit)
    (hrows : s'.rows = s.rows) (hpinned : s'.pinned = s.pinned) (htxns : s'.txns = s.txns) :
    s'.QueryOk x := by
  have hcurrent : ∀ txn key, s.Current txn key → s'.Current txn key := by
    intro txn key hk
    refine ⟨htxns ▸ hk.txn, hlast ▸ hk.known, hk.fresh, fun id hid => hk.commits id ?_⟩
    unfold Has at hid ⊢
    rwa [hrows] at hid
  cases x with
  | captured txn key => exact hcurrent txn key hx
  | building txn key bits =>
    refine ⟨hcurrent txn key hx.1, ?_⟩
    unfold System.ownMasks
    rw [hrows, hpinned]
    exact hx.2
  | built key masks =>
    intro hpub
    rw [hlast, hrows, hpinned]
    exact hx hpub
  | done => trivial

variable {q : ℕ}

theorem Inv.setQuery {x : Query} (hinv : s.Inv) (hx : s.QueryOk x) : (s.setQuery q x).Inv := by
  refine ⟨hinv.clock, hinv.commits, hinv.writers, hinv.started, hinv.pinned, ?_, hinv.cache,
    hinv.served⟩
  exact Table.forall_lookup_insert (hx.of_same rfl rfl rfl rfl)
    fun q' x' hx' => (hinv.queries q' x' hx').of_same rfl rfl rfl rfl

theorem Inv.serve {startTime : ℕ} (hinv : s.Inv)
    (hmasks : masks = s.ownMasks t startTime) : (s.serve t startTime masks).Inv := by
  refine ⟨hinv.clock, hinv.commits, hinv.writers, hinv.started, hinv.pinned,
    fun q x hx => (hinv.queries q x hx).of_same rfl rfl rfl rfl, hinv.cache, ?_⟩
  intro p hp
  rcases List.mem_cons.mp hp with rfl | hold
  · exact hmasks
  · exact hinv.served p hold

theorem Inv.pin {n : ℕ} (hinv : s.Inv) (h : s.step (.pin n) = some s') : s'.Inv := by
  simp only [step] at h
  split_ifs at h with hcond
  cases h
  obtain ⟨hn, hqueries, hcache⟩ := hcond
  refine ⟨hinv.clock, hinv.commits, hinv.writers, hinv.started, hn, ?_, ?_, hinv.served⟩
  · intro q x hx
    have hmem := Table.mem_entries.mpr hx
    rw [hqueries] at hmem
    cases hmem
  · intro e he
    simp only [hcache] at he
    cases he

theorem Inv.capture (hinv : s.Inv) (h : s.step (.capture q t) = some s') : s'.Inv := by
  simp only [step] at h
  split at h
  · next x hx =>
    split_ifs at h
    cases h
    exact hinv.setQuery
      ⟨hx, le_rfl, (hinv.started t x hx).2, fun id hid => .inl (hinv.commits id hid)⟩
  · cases h

/-- A set that the key of a query may reuse is the one its snapshot builds. -/
theorem Inv.reusable {built key : SnapshotKey} (hinv : s.Inv)
    (hcache : s.cache = some (built, masks)) (hk : s.Current t key)
    (hreuse : mvccMaskCacheReusable built key) : masks = s.ownMasks t key.startTime := by
  simp only [mvccMaskCacheReusable, Bool.and_eq_true, decide_eq_true_eq, Bool.not_eq_true']
    at hreuse
  obtain ⟨⟨⟨hpub, hclean⟩, hlast⟩, hcovers⟩ := hreuse
  have hmasks := (hinv.cache (built, masks) hcache hpub).2
  rw [hk.ownMasks hinv hclean (hlast.trans_le hcovers), hlast]
  exact hmasks

theorem Inv.probe (hinv : s.Inv) (h : s.step (.probe q) = some s') : s'.Inv := by
  simp only [step] at h
  split at h
  · next txn key hq =>
    have hk : s.Current txn key := hinv.queries q _ hq
    have hmiss : (s.setQuery q (.building txn key [])).Inv := hinv.setQuery ⟨hk, rfl⟩
    split at h
    · next built masks hcache =>
      split_ifs at h with hreuse
      · cases h
        exact (hinv.serve (hinv.reusable hcache hk hreuse)).setQuery trivial
      · cases h
        exact hmiss
    · cases h
      exact hmiss
  · cases h

theorem Inv.readRow (hinv : s.Inv) (h : s.step (.readRow q) = some s') : s'.Inv := by
  simp only [step] at h
  split at h
  · next txn key bits hq =>
    obtain ⟨hk, hbits⟩ := hinv.queries q _ hq
    split_ifs at h with hlt
    split at h
    · next row hrow =>
      cases h
      refine hinv.setQuery ⟨hk, ?_⟩
      have hget : (s.ownMasks txn key.startTime)[bits.length]? =
          some (row.visible (snapshot txn key.startTime)) := by
        unfold System.ownMasks maskOf
        rw [List.getElem?_map, List.getElem?_take_of_lt hlt, hrow]
        rfl
      rw [List.length_append, List.length_singleton, List.take_add_one, ← hbits, hget]
      rfl
    · cases h
  · cases h

theorem Inv.finish (hinv : s.Inv) (h : s.step (.finish q) = some s') : s'.Inv := by
  simp only [step] at h
  split at h
  · next txn key bits hq =>
    obtain ⟨hk, hbits⟩ := hinv.queries q _ hq
    split_ifs at h with hlength
    cases h
    have hall : bits = s.ownMasks txn key.startTime := by
      rw [hbits, List.take_of_length_le]
      unfold System.ownMasks maskOf
      rw [List.length_map, List.length_take, hlength]
      exact Nat.min_le_left _ _
    refine (hinv.serve hall).setQuery ?_
    intro hpub
    simp only [mvccMaskCachePublishable, Bool.and_eq_true, decide_eq_true_eq, Bool.not_eq_true']
      at hpub
    exact ⟨hk.known, hall.trans (hk.ownMasks hinv hpub.1 hpub.2)⟩
  · cases h

theorem Inv.publish (hinv : s.Inv) (h : s.step (.publish q) = some s') : s'.Inv := by
  simp only [step] at h
  split at h
  · next key masks hq =>
    cases h
    have hsound : s.Sound key masks := hinv.queries q _ hq
    have hdone : (s.setQuery q .done).Inv := hinv.setQuery trivial
    split_ifs
    · refine ⟨hdone.clock, hdone.commits, hdone.writers, hdone.started, hdone.pinned,
        fun q x hx => (hdone.queries q x hx).of_same rfl rfl rfl rfl, ?_, hdone.served⟩
      rintro e he
      cases he
      exact hsound
    · exact hdone
  · cases h

theorem Inv.step (s : System) (a : Action) (s' : System) (hinv : s.Inv)
    (h : s.step a = some s') : s'.Inv := by
  cases a with
  | start t => exact hinv.start h
  | insert t => exact hinv.insert h
  | delete t i => exact hinv.delete h
  | commit t => exact hinv.commit h
  | pin n => exact hinv.pin h
  | capture q t => exact hinv.capture h
  | probe q => exact hinv.probe h
  | readRow q => exact hinv.readRow h
  | finish q => exact hinv.finish h
  | publish q => exact hinv.publish h

/-- **Every query is served the masks of its own snapshot**, in every run of the database,
    the queries and the cache, from the cache or from a build alike. -/
theorem served_own_masks {s₀ s : System} {as : List Action} (h₀ : s₀.Opened)
    (h : run System.step s₀ as = some s) : ∀ p ∈ s.served, p.1 = p.2 :=
  (run_invariant Inv.step h₀.inv h).served

/-- Two rows. A writer deletes the first one and commits while a query that began before
    reads, so its set is not published. The next query builds and publishes, and the one
    after it gets that set out of the cache. -/
def twoRows : System where
  counter := 2
  lastCommit := 1
  rows := [⟨.committed 0, none⟩, ⟨.committed 1, none⟩]
  pinned := 2

def twoRowsRun : List Action :=
  [.start 0, .start 1, .delete 1 0, .capture 0 0, .probe 0, .readRow 0, .commit 1, .readRow 0,
    .finish 0, .publish 0, .start 2, .start 3, .capture 1 2, .probe 1, .readRow 1, .readRow 1,
    .finish 1, .publish 1, .capture 2 3, .probe 2]

theorem twoRows_opened : twoRows.Opened where
  clock := by decide
  stamps := by
    rintro stamp ⟨row, hrow, hstamp⟩
    have hcases : row = ⟨.committed 0, none⟩ ∨ row = ⟨.committed 1, none⟩ := by
      simpa [twoRows] using hrow
    rcases hcases with rfl | rfl
    · exact ⟨0, by decide, (hstamp.resolve_right nofun).symm⟩
    · exact ⟨1, by decide, (hstamp.resolve_right nofun).symm⟩
  pinned := by decide
  txns := rfl
  queries := rfl
  cache := rfl
  served := rfl

theorem served_own_masks_twoRows :
    ∃ s, run System.step twoRows twoRowsRun = some s ∧
      s.served = [([false, true], [false, true]), ([false, true], [false, true]),
        ([true, true], [true, true])] ∧
      ∀ p ∈ s.served, p.1 = p.2 := by
  have hsome : (run System.step twoRows twoRowsRun).isSome := by decide
  obtain ⟨s, hs⟩ := Option.isSome_iff_exists.mp hsome
  have hserved : (run System.step twoRows twoRowsRun).map System.served =
      some [([false, true], [false, true]), ([false, true], [false, true]),
        ([true, true], [true, true])] := by decide
  rw [hs] at hserved
  exact ⟨s, hs, Option.some.inj hserved, served_own_masks twoRows_opened hs⟩

end System

end Sirius.ScanManager.MaskCache
