import Sirius.IoCache.ChunkState

/-!
# The prefetching cache as one system

Model of the parts of `src/io/cache/prefetching_cache.cpp` that share chunks:
`initiate_prefetching_request` (lines 524–656) with `subscribe_chunks`
(252–300), `prepare_request` (658–777), `prefetch` (1347–1451), the demand
reads (853–1001) and the evictor thread `evict_loop` (1453–1643), for one live
generation. Chunk `i` covers the bytes `[i * chunkBytes, (i + 1) * chunkBytes)`.

Every atomic operation is one step: an operation of `chunk_state` takes effect
at one instant (`operations_serial`), and a load or an update of a stage is
one step too. Calls of all kinds interleave freely.

Where the code goes through a list in order and nothing depends on the order,
the model lets the next element be any of the list, and lets the evictor leave
a pass at any point; the runs of the code are among those of the model.
-/

namespace Sirius.IoCache

open Sirius.Common.CasLoop ChunkFill ChunkState

/-! ## Stages -/

/-- `producer_stage::value` (`types.hpp` lines 671–679). -/
inductive ProducerStage where
  | initialized | queued | preparing | prepared | loading | ready | abandoned
  deriving DecidableEq, Repr

/-- The order of the stages. -/
def ProducerStage.rank : ProducerStage → ℕ
  | .initialized => 0
  | .queued => 1
  | .preparing => 2
  | .prepared => 3
  | .loading => 4
  | .ready => 5
  | .abandoned => 6

/-- `producer_stage::advance(to)` (lines 763–773): the stage after it. -/
def ProducerStage.advance (cur dst : ProducerStage) : ProducerStage :=
  if cur.rank < dst.rank then dst else cur

/-- `producer_stage::mark_load_failed()` (lines 709–716): `loading → prepared`. -/
def ProducerStage.markLoadFailed (cur : ProducerStage) : ProducerStage :=
  if cur = .loading then .prepared else cur

/-- `consumer_stage::value` (`types.hpp` lines 818–824). -/
inductive ConsumerStage where
  | initialized | queued | preparing | reading | disposed
  deriving DecidableEq, Repr

/-- The order of the stages. -/
def ConsumerStage.rank : ConsumerStage → ℕ
  | .initialized => 0
  | .queued => 1
  | .preparing => 2
  | .reading => 3
  | .disposed => 4

/-- `consumer_stage::mark(to)` (lines 850–858): monotone, and `disposed` is last. -/
def ConsumerStage.mark (cur dst : ConsumerStage) : ConsumerStage :=
  if cur.rank < dst.rank then dst else cur

/-! ## Requests -/

/-- A chunk named by a request, with the ranges of the request that touch it. -/
structure Want where
  chunk : ℕ
  spans : List (ℕ × ℕ)
  deriving DecidableEq, Repr

/-- The extent a request wants of a chunk (lines 584–608): `needed_fill` of each
    range that touches it, folded. -/
def Want.fill (cb : ℕ) (w : Want) : ChunkFill :=
  (w.spans.map fun x => neededFill (w.chunk * cb) cb x.1 x.2).foldl merge unset

/-- Every range touches the chunk, and there is one. -/
def Want.Touches (cb : ℕ) (w : Want) : Prop :=
  w.spans ≠ [] ∧
    ∀ x ∈ w.spans, max x.1 (w.chunk * cb) < min x.2 (w.chunk * cb + cb)

instance (cb : ℕ) (w : Want) : Decidable (w.Touches cb) :=
  inferInstanceAs (Decidable (_ ∧ ∀ x ∈ w.spans, _))

/-- Where an `initiate_prefetching_request` call stands. `merging` is between
    the `add_subscriber` and the `merge_fill` of one claim. `claimed` is what the
    rollback guard has to give back. -/
inductive Phase where
  | idle
  | subscribing (todo claimed : List Want)
  | merging (w : Want) (todo claimed : List Want)
  | rollingBack (todo : List Want)
  | aborted
  | committed
  deriving DecidableEq, Repr

/-- `prefetch_request`, with `released` of the `tracked_request` around it.
    `taken` and `dropped` count its `add_subscriber` and `drop_subscriber` calls
    on each chunk. -/
structure Request where
  wants : List Want := []
  phase : Phase := .idle
  producer : ProducerStage := .initialized
  consumer : ConsumerStage := .initialized
  released : Bool := false
  taken : ℕ → ℕ := fun _ => 0
  dropped : ℕ → ℕ := fun _ => 0

/-- The request names chunk `c`. -/
def Request.Names (q : Request) (c : ℕ) : Prop := ∃ w ∈ q.wants, w.chunk = c

instance (q : Request) (c : ℕ) : Decidable (q.Names c) :=
  inferInstanceAs (Decidable (∃ w ∈ q.wants, _))

/-! ## Program counters -/

/-- `evict_loop`. `dropping` releases the references of one request, `checking`
    decides whether one request can be retired, and `detaching` is between
    `mark_evicting` and `mark_empty`. `pass1` is the second sweep. -/
inductive EvictorPc where
  | idle
  | releasing
  | dropping (r : ℕ) (todo : List Want)
  | retiring
  | checking (r : ℕ) (todo : List Want)
  | sweeping (pass1 : Bool)
  | detaching (pass1 : Bool) (c : ℕ)
  deriving DecidableEq, Repr

/-- The `has_fallen_behind` checks of `prepare_request`: on entry, around the
    wait for an eviction, and right before attaching `n` buffers. -/
inductive Gate where
  | entry
  | waiting
  | final (n : ℕ)
  deriving DecidableEq, Repr

/-- `prepare_request`. `has_fallen_behind` loads the consumer stage and then, if
    that is `preparing` or later, the producer stage; `abandon` is before the
    `mark_abandoned` that follows. -/
inductive PreparePc where
  | consumerLoad (g : Gate)
  | producerLoad (g : Gate)
  | abandon
  | stage
  | allocating
  | attaching (todo : List Want) (buffers : ℕ)
  | attached (c : ℕ) (todo : List Want) (buffers : ℕ)
  | verifying (todo : List Want)
  | markPreparing
  | markPrepared
  deriving DecidableEq, Repr

/-- `prefetch`. `failing` is `fail_setup`; `inflight` has submitted its IO. -/
inductive PrefetchPc where
  | consumerLoad
  | producerLoad
  | markLoading
  | claiming (todo : List Want)
  | failing
  | inflight
  deriving DecidableEq, Repr

/-- Who moved a chunk to `loading`: a `prefetch` call, or a demand read. -/
inductive Loader where
  | prefetch (f : ℕ)
  | demand
  deriving DecidableEq, Repr

/-- The cache. `loadedFor c` is the request whose prefetch loaded chunk `c`
    since it was last reclaimed. -/
structure Cache where
  chunk : ℕ → View := fun _ => {}
  req : ℕ → Request := fun _ => {}
  queue : List ℕ := []
  batch : List ℕ := []
  evictor : EvictorPc := .idle
  prepare : ℕ → Option (ℕ × PreparePc) := fun _ => none
  prefetch : ℕ → Option (ℕ × PrefetchPc) := fun _ => none
  loader : ℕ → Option Loader := fun _ => none
  loadedFor : ℕ → Option ℕ := fun _ => none

namespace Cache

/-! ## Single updates -/

/-- One operation on the state of chunk `c`: the chunk after it. -/
def op (s : Cache) (c : ℕ) (o : Op) : View := ((View.attempt o (s.chunk c)).apply (s.chunk c)).1

/-- What the operation returns. -/
def ret (s : Cache) (c : ℕ) (o : Op) : Bool :=
  ((View.attempt o (s.chunk c)).apply (s.chunk c)).2.ok

/-- The word of chunk `c` becomes `v`. -/
def setChunk (s : Cache) (c : ℕ) (v : View) : Cache :=
  { s with chunk := Function.update s.chunk c v }

/-- Request `r` becomes `q`. -/
def setReq (s : Cache) (r : ℕ) (q : Request) : Cache :=
  { s with req := Function.update s.req r q }

/-- The call `p` of `prepare_request` is at `x`. -/
def setPrepare (s : Cache) (p : ℕ) (x : Option (ℕ × PreparePc)) : Cache :=
  { s with prepare := Function.update s.prepare p x }

/-- The call `f` of `prefetch` is at `x`. -/
def setPrefetch (s : Cache) (f : ℕ) (x : Option (ℕ × PrefetchPc)) : Cache :=
  { s with prefetch := Function.update s.prefetch f x }

/-- The load of chunk `c` is `x`. -/
def setLoader (s : Cache) (c : ℕ) (x : Option Loader) : Cache :=
  { s with loader := Function.update s.loader c x }

/-- Chunk `c` was last loaded for `x`. -/
def setLoadedFor (s : Cache) (c : ℕ) (x : Option ℕ) : Cache :=
  { s with loadedFor := Function.update s.loadedFor c x }

/-- `producer->...` of request `r`. -/
def setProducer (s : Cache) (r : ℕ) (p : ProducerStage) : Cache :=
  s.setReq r { s.req r with producer := p }

variable (cb : ℕ)

/-! ## `initiate_prefetching_request` -/

/-- The steps of a call. -/
inductive InitiateAct where
  | start (wants : List Want)
  | claim (w : Want)
  | mergeFill
  | throw
  | rollBack
  | enqueue
  deriving DecidableEq, Repr

/-- One step of the call for request `r`. The claims of the first pass (chunks
    that exist) and of the second (chunks to create) come in any order, an
    exception can leave between two claims or before the request is queued, and
    the rollback guard then drops what was claimed. -/
def stepInitiate (s : Cache) (r : ℕ) : InitiateAct → Option Cache
  | .start wants =>
    if (s.req r).phase = .idle ∧ (wants.map Want.chunk).Nodup ∧ ∀ w ∈ wants, w.Touches cb then
      some (s.setReq r { s.req r with wants := wants, phase := .subscribing wants [] })
    else none
  | .claim w =>
    match (s.req r).phase with
    | .subscribing todo claimed =>
      if w ∈ todo then
        some ((s.setChunk w.chunk (s.op w.chunk .addSubscriber)).setReq r { s.req r with
          phase := .merging w (todo.erase w) claimed
          taken := Function.update (s.req r).taken w.chunk ((s.req r).taken w.chunk + 1) })
      else none
    | _ => none
  | .mergeFill =>
    match (s.req r).phase with
    | .merging w todo claimed =>
      some ((s.setChunk w.chunk (s.op w.chunk (.mergeFill (w.fill cb)))).setReq r { s.req r with
        phase := .subscribing todo (w :: claimed) })
    | _ => none
  | .throw =>
    match (s.req r).phase with
    | .subscribing _ claimed => some (s.setReq r { s.req r with phase := .rollingBack claimed })
    | _ => none
  | .rollBack =>
    match (s.req r).phase with
    | .rollingBack (w :: todo) =>
      some ((s.setChunk w.chunk (s.op w.chunk .dropSubscriber)).setReq r { s.req r with
        phase := .rollingBack todo
        dropped := Function.update (s.req r).dropped w.chunk ((s.req r).dropped w.chunk + 1) })
    | .rollingBack [] => some (s.setReq r { s.req r with phase := .aborted })
    | _ => none
  | .enqueue =>
    match (s.req r).phase with
    | .subscribing [] _ =>
      some { s.setReq r { s.req r with
              phase := .committed
              producer := (s.req r).producer.advance .queued } with
            queue := s.queue ++ [r] }
    | _ => none

/-! ## The evictor -/

/-- The steps of the evictor. -/
inductive EvictorAct where
  | absorb (r : ℕ)
  | startRelease
  | startDrop (r : ℕ)
  | drop
  | endRelease
  | startCheck (r : ℕ)
  | check
  | endRetire (sweep : Bool)
  | evict (r c : ℕ)
  | detach
  | nextPass
  | endSweep
  deriving DecidableEq, Repr

/-- One step of `evict_loop`: absorb queued requests, release the references of
    the requests whose consumer is gone (lines 1538–1544), retire those with
    nothing left to reclaim (1550–1557), then sweep (1600–1620), first only the
    chunks without subscriber. -/
def stepEvictor (s : Cache) : EvictorAct → Option Cache
  | .absorb r =>
    if s.evictor = .idle ∧ r ∈ s.queue then
      some { s with queue := s.queue.erase r, batch := s.batch ++ [r] }
    else none
  | .startRelease => if s.evictor = .idle then some { s with evictor := .releasing } else none
  | .startDrop r =>
    if s.evictor = .releasing ∧ r ∈ s.batch ∧ (s.req r).released = false ∧
        (s.req r).consumer = .disposed then
      some { s with evictor := .dropping r (s.req r).wants }
    else none
  | .drop =>
    match s.evictor with
    | .dropping r (w :: todo) =>
      some { (s.setChunk w.chunk (s.op w.chunk .dropSubscriber)).setReq r { s.req r with
              dropped := Function.update (s.req r).dropped w.chunk
                ((s.req r).dropped w.chunk + 1) } with
            evictor := .dropping r todo }
    | .dropping r [] =>
      some { s.setReq r { s.req r with released := true } with evictor := .releasing }
    | _ => none
  | .endRelease => if s.evictor = .releasing then some { s with evictor := .retiring } else none
  | .startCheck r =>
    if s.evictor = .retiring ∧ r ∈ s.batch ∧ (s.req r).released = true then
      some { s with evictor := .checking r (s.req r).wants }
    else none
  | .check =>
    match s.evictor with
    | .checking r (w :: todo) =>
      if (s.chunk w.chunk).state = .empty ∨ (s.chunk w.chunk).subscribers ≠ 0 then
        some { s with evictor := .checking r todo }
      else some { s with evictor := .retiring }
    | .checking r [] => some { s with batch := s.batch.erase r, evictor := .retiring }
    | _ => none
  | .endRetire sweep =>
    if s.evictor = .retiring then
      some { s with evictor := if sweep then .sweeping false else .idle }
    else none
  | .evict r c =>
    match s.evictor with
    | .sweeping pass1 =>
      if r ∈ s.batch ∧ (s.req r).released = true ∧ (s.req r).Names c then
        if s.ret c (.markEvicting (!pass1)) then
          some { s.setChunk c (s.op c (.markEvicting (!pass1))) with
            evictor := .detaching pass1 c }
        else some s
      else none
    | _ => none
  | .detach =>
    match s.evictor with
    | .detaching pass1 c =>
      some { (s.setChunk c (s.op c .markEmpty)).setLoadedFor c none with
        evictor := .sweeping pass1 }
    | _ => none
  | .nextPass =>
    if s.evictor = .sweeping false then some { s with evictor := .sweeping true } else none
  | .endSweep =>
    match s.evictor with
    | .sweeping _ => some { s with evictor := .idle }
    | _ => none

/-! ## `prepare_request` -/

/-- The steps of a call; what `allocate_bulk` returns comes from outside. -/
inductive PrepareAct where
  | call (r : ℕ)
  | next
  | allocated (n : ℕ)
  | waitEviction
  | giveUp
  deriving DecidableEq, Repr

/-- Where `prepare_request` on `r` goes on after `has_fallen_behind` was false. -/
def passGate (s : Cache) (r : ℕ) : Gate → PreparePc
  | .entry => .stage
  | .waiting => .allocating
  | .final n => .attaching (s.req r).wants n

/-- One step of the call `p`. The number of buffers is the number of chunks the
    call saw `empty`; since they move meanwhile, any number is possible. -/
def stepPrepare (s : Cache) (p : ℕ) : PrepareAct → Option Cache
  | .call r =>
    if s.prepare p = none ∧ (s.req r).phase = .committed then
      some (s.setPrepare p (some (r, .consumerLoad .entry)))
    else none
  | .allocated n =>
    match s.prepare p with
    | some (r, .allocating) => some (s.setPrepare p (some (r, .consumerLoad (.final n))))
    | _ => none
  | .waitEviction =>
    match s.prepare p with
    | some (r, .allocating) => some (s.setPrepare p (some (r, .consumerLoad .waiting)))
    | _ => none
  | .giveUp =>
    match s.prepare p with
    | some (_, .allocating) => some (s.setPrepare p none)
    | _ => none
  | .next =>
    match s.prepare p with
    | some (r, .consumerLoad g) =>
      if ConsumerStage.preparing.rank ≤ (s.req r).consumer.rank then
        some (s.setPrepare p (some (r, .producerLoad g)))
      else some (s.setPrepare p (some (r, s.passGate r g)))
    | some (r, .producerLoad g) =>
      if (s.req r).producer.rank < ProducerStage.loading.rank then
        some (s.setPrepare p (some (r, .abandon)))
      else some (s.setPrepare p (some (r, s.passGate r g)))
    | some (r, .abandon) => some ((s.setProducer r .abandoned).setPrepare p none)
    | some (r, .stage) =>
      if (s.req r).producer = .queued then some (s.setPrepare p (some (r, .allocating)))
      else some (s.setPrepare p none)
    | some (r, .attaching (w :: todo) (n + 1)) =>
      if s.ret w.chunk .markQueued then
        some ((s.setChunk w.chunk (s.op w.chunk .markQueued)).setPrepare p
          (some (r, .attached w.chunk todo n)))
      else some (s.setPrepare p (some (r, .attaching todo (n + 1))))
    | some (r, .attaching _ _) => some (s.setPrepare p (some (r, .verifying (s.req r).wants)))
    | some (r, .attached c todo n) =>
      if s.ret c .markAllocated then
        some ((s.setChunk c (s.op c .markAllocated)).setPrepare p (some (r, .attaching todo n)))
      else some (s.setPrepare p (some (r, .attaching todo (n + 1))))
    | some (r, .verifying (w :: todo)) =>
      match (s.chunk w.chunk).state with
      | .empty | .queued | .evicting => some (s.setPrepare p none)
      | _ => some (s.setPrepare p (some (r, .verifying todo)))
    | some (r, .verifying []) => some (s.setPrepare p (some (r, .markPreparing)))
    | some (r, .markPreparing) =>
      if (s.req r).producer.rank < ProducerStage.preparing.rank then
        some ((s.setProducer r .preparing).setPrepare p (some (r, .markPrepared)))
      else some (s.setPrepare p none)
    | some (r, .markPrepared) =>
      some ((s.setProducer r ((s.req r).producer.advance .prepared)).setPrepare p none)
    | some (_, .allocating) => none
    | none => none

/-! ## `prefetch` -/

/-- The steps of a call and of the IO that it submitted. -/
inductive PrefetchAct where
  | call (r : ℕ)
  | next
  | unsupported
  | throw
  | complete (c : ℕ) (ok : Bool)
  | terminal (ok : Bool)
  deriving DecidableEq, Repr

/-- No chunk of request `r` is still held by the prefetch call `f`. -/
def NoneClaimed (s : Cache) (f r : ℕ) : Prop :=
  ∀ w ∈ (s.req r).wants, s.loader w.chunk ≠ some (.prefetch f)

instance (s : Cache) (f r : ℕ) : Decidable (s.NoneClaimed f r) :=
  inferInstanceAs (Decidable (∀ w ∈ _, _))

/-- The end of a load of chunk `c`: `mark_cached` or `mark_load_failed`. -/
def finishLoad (s : Cache) (c : ℕ) (ok : Bool) : Cache :=
  (s.setChunk c (s.op c (if ok then .markCached else .markLoadFailed))).setLoader c none

/-- One step of the call `f`. -/
def stepPrefetch (s : Cache) (f : ℕ) : PrefetchAct → Option Cache
  | .call r =>
    if s.prefetch f = none ∧ (s.req r).phase = .committed then
      some (s.setPrefetch f (some (r, .consumerLoad)))
    else none
  | .unsupported =>
    match s.prefetch f with
    | some (_, .markLoading) => some (s.setPrefetch f none)
    | _ => none
  | .throw =>
    match s.prefetch f with
    | some (r, .claiming _) => some (s.setPrefetch f (some (r, .failing)))
    | _ => none
  | .complete c ok =>
    if s.loader c = some (.prefetch f) then
      match s.prefetch f with
      | some (r, .inflight) =>
        some ((s.finishLoad c ok).setLoadedFor c (if ok then some r else none))
      | some (_, .failing) => if ok then none else some (s.finishLoad c false)
      | _ => none
    else none
  | .terminal ok =>
    match s.prefetch f with
    | some (r, .inflight) =>
      if s.NoneClaimed f r then
        some ((s.setProducer r (if ok then (s.req r).producer.advance .ready
          else (s.req r).producer.markLoadFailed)).setPrefetch f none)
      else none
    | some (r, .failing) =>
      if s.NoneClaimed f r then
        some ((s.setProducer r (s.req r).producer.markLoadFailed).setPrefetch f none)
      else none
    | _ => none
  | .next =>
    match s.prefetch f with
    | some (r, .consumerLoad) =>
      if ConsumerStage.preparing.rank ≤ (s.req r).consumer.rank then
        some (s.setPrefetch f (some (r, .producerLoad)))
      else some (s.setPrefetch f (some (r, .markLoading)))
    | some (r, .producerLoad) =>
      if (s.req r).producer.rank < ProducerStage.loading.rank then some (s.setPrefetch f none)
      else some (s.setPrefetch f (some (r, .markLoading)))
    | some (r, .markLoading) =>
      if (s.req r).producer.rank < ProducerStage.loading.rank then
        some ((s.setProducer r .loading).setPrefetch f (some (r, .claiming (s.req r).wants)))
      else some (s.setPrefetch f none)
    | some (r, .claiming (w :: todo)) =>
      if s.ret w.chunk .takeLoading then
        some (((s.setChunk w.chunk (s.op w.chunk .takeLoading)).setLoader w.chunk
          (some (.prefetch f))).setPrefetch f (some (r, .claiming todo)))
      else some (s.setPrefetch f (some (r, .claiming todo)))
    | some (r, .claiming []) =>
      if s.NoneClaimed f r then
        some ((s.setProducer r ((s.req r).producer.advance .ready)).setPrefetch f none)
      else if (s.req r).consumer = .disposed then some (s.setPrefetch f (some (r, .failing)))
      else some (s.setPrefetch f (some (r, .inflight)))
    | _ => none

/-! ## Demand reads -/

/-- The steps of the demand reads. -/
inductive DemandAct where
  | pin (c lo hi : ℕ)
  | unpin (c : ℕ)
  | load (c lo hi : ℕ)
  | loaded (c : ℕ) (ok : Bool)
  deriving DecidableEq, Repr

/-- One step of a demand read: pin a hit, unpin it after the copy, claim an
    `allocated` chunk, or end such a load. A pin that meets a full count succeeds
    and is not counted. There is no step past the failed assert of `release_read`,
    an unpin of a chunk without a counted pin (see `saturated_pin_lost`). -/
def stepDemand (s : Cache) : DemandAct → Option Cache
  | .pin c lo hi => some (s.setChunk c (s.op c (.tryPinCovering (c * cb) cb lo hi)))
  | .unpin c =>
    if 0 < (s.chunk c).pins then some (s.setChunk c (s.op c .releaseRead)) else none
  | .load c lo hi =>
    if max lo (c * cb) < min hi (c * cb + cb) ∧
        s.ret c (.takeLoadingMerging (neededFill (c * cb) cb lo hi)) = true then
      some ((s.setChunk c (s.op c (.takeLoadingMerging (neededFill (c * cb) cb lo hi)))).setLoader c
        (some .demand))
    else none
  | .loaded c ok => if s.loader c = some .demand then some (s.finishLoad c ok) else none

/-! ## The system -/

/-- Whose step it is. -/
inductive Action where
  | initiate (r : ℕ) (a : InitiateAct)
  | consume (r : ℕ) (dst : ConsumerStage)
  | evictor (a : EvictorAct)
  | prepare (p : ℕ) (a : PrepareAct)
  | prefetch (f : ℕ) (a : PrefetchAct)
  | demand (a : DemandAct)
  deriving DecidableEq, Repr

/-- One step of anybody. A consumer gets hold of its request when the request
    is queued, and moves its stage at any time from then on. -/
def step (s : Cache) : Action → Option Cache
  | .initiate r a => s.stepInitiate cb r a
  | .consume r dst =>
    if (s.req r).phase = .committed then
      some (s.setReq r { s.req r with consumer := (s.req r).consumer.mark dst })
    else none
  | .evictor a => s.stepEvictor a
  | .prepare p a => s.stepPrepare p a
  | .prefetch f a => s.stepPrefetch f a
  | .demand a => s.stepDemand cb a

/-- An empty cache. -/
def start : Cache := {}

end Cache

end Sirius.IoCache
