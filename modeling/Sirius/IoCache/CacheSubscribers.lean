import Sirius.IoCache.CacheInvariant

/-!
# Subscriber counts

A chunk counts the requests that name it. `subscribe_chunks` takes the
references, a failed `initiate_prefetching_request` gives back those it took,
and the evictor gives back those of a request whose consumer is gone.

The count saturates at `MAX_SUBSCRIBERS`, and it includes the calls that are
still under way.

* `subscribers_counted`: the runs in which no `add_subscriber` meets a full count.
* `subscribers_le_holders`: in every run, the stored count is at most the number
  of requests that hold the chunk.
* `full_count_loses_subscriber`: what happens when a reference is taken on a
  chunk whose count is full.
-/

namespace Sirius.IoCache

open Sirius.Common Sirius.Common.CasLoop ChunkFill ChunkState

namespace Cache

variable {cb : ℕ}

/-- The requests that hold a reference on chunk `c`. -/
def holders (s : Cache) (c : ℕ) : Set ℕ := {r | s.Holds r c}

variable {s s' : Cache} {r : ℕ}

theorem holders_takes {w : Want} (h : Takes s s' r w) (c : ℕ) :
    s'.holders c = if c = w.chunk then insert r (s.holders c) else s.holders c := by
  ext r'
  by_cases hr : r' = r
  · subst hr
    have : s'.Holds r' c ↔ c = w.chunk ∨ s.Holds r' c := by
      unfold Holds
      rw [h.self]
      simp
    simp only [holders, Set.mem_ofPred_eq, this]
    split_ifs with hc <;> simp [hc]
  · have : s'.Holds r' c ↔ s.Holds r' c := by
      unfold Holds
      rw [(h.others r' hr).1]
    simp only [holders, Set.mem_ofPred_eq, this]
    split_ifs <;> simp [hr]

theorem holders_drops {w : Want} (h : Drops s s' r w) (c : ℕ) :
    s'.holders c = if c = w.chunk then s.holders c \ {r} else s.holders c := by
  ext r'
  by_cases hr : r' = r
  · subst hr
    have hself : s.Holds r' c ↔ c = w.chunk ∨ s'.Holds r' c := by
      unfold Holds
      rw [h.self]
      simp
    simp only [holders, Set.mem_ofPred_eq]
    split_ifs with hc
    · subst hc
      simpa using h.last
    · simp [hself, hc]
  · have : s'.Holds r' c ↔ s.Holds r' c := by
      unfold Holds
      rw [(h.others r' hr).1]
    simp only [holders, Set.mem_ofPred_eq, this]
    split_ifs <;> simp [hr]

theorem holders_keeps (h : Keeps s s') (c : ℕ) : s'.holders c = s.holders c := by
  ext r
  exact h.holds r c

/-! ## The stored count -/

theorem op_addSubscriber (s : Cache) (c : ℕ) :
    (s.op c .addSubscriber).subscribers = min ((s.chunk c).subscribers + 1)
      (max (s.chunk c).subscribers maxSubscribers) := by
  simp only [op, View.attempt]
  split_ifs with h
  · simp only [Attempt.apply]
    omega
  · simp only [Attempt.apply]
    omega

theorem op_dropSubscriber (s : Cache) (c : ℕ) :
    (s.op c .dropSubscriber).subscribers = (s.chunk c).subscribers - 1 := by
  simp only [op, View.attempt]
  split_ifs with h
  · simp only [Attempt.apply]
    omega
  · rfl

/-- The stored count is at most the number of holders. -/
structure CountedLe (s : Cache) : Prop where
  finite : ∀ c, (s.holders c).Finite
  le : ∀ c, (s.chunk c).subscribers ≤ (s.holders c).ncard

variable {a : Action}

theorem countedLe_step (hI : Inv s) (hc : CountedLe s)
    (h : s.step cb a = some s') : CountedLe s' := by
  rcases outstanding_step hI h with ⟨r, w, -, ht⟩ | ⟨r, w, hd⟩ | hk
  · refine ⟨fun c => ?_, fun c => ?_⟩
    all_goals rw [holders_takes ht c]
    · split_ifs
      · exact (hc.finite c).insert r
      · exact hc.finite c
    · rw [ht.chunk]
      split_ifs with hcw
      · subst hcw
        rw [Function.update_self, op_addSubscriber,
          Set.ncard_insert_of_notMem (show r ∉ s.holders w.chunk from ht.fresh) (hc.finite _)]
        have := hc.le w.chunk
        omega
      · rw [Function.update_of_ne hcw]
        exact hc.le c
  · refine ⟨fun c => ?_, fun c => ?_⟩
    all_goals rw [holders_drops hd c]
    · split_ifs
      · exact (hc.finite c).sdiff
      · exact hc.finite c
    · rw [hd.chunk]
      split_ifs with hcw
      · subst hcw
        have hmem : r ∈ s.holders w.chunk := by
          show s.Holds r w.chunk
          unfold Holds
          rw [hd.self]
          simp
        have := Set.ncard_sdiff_singleton_add_one hmem (hc.finite _)
        have := hc.le w.chunk
        rw [Function.update_self, op_dropSubscriber]
        omega
      · rw [Function.update_of_ne hcw]
        exact hc.le c
  · refine ⟨fun c => ?_, fun c => ?_⟩
    · rw [holders_keeps hk]; exact hc.finite c
    · rw [holders_keeps hk, hk.subs]; exact hc.le c

theorem holders_start (c : ℕ) : holders start c = ∅ := by
  ext r
  simp [holders, Holds, outstanding, start]

theorem countedLe_start : CountedLe start :=
  ⟨fun c => by rw [holders_start]; exact Set.finite_empty,
    fun c => by rw [holders_start]; simp [start]⟩

/-- In every run, the stored count is at most the number of holders. -/
theorem subscribers_le_holders {s : Cache} {as : List Action}
    (h : run (step cb) start as = some s) : CountedLe s := by
  have : Inv s ∧ CountedLe s := run_invariant (I := fun s => Inv s ∧ CountedLe s)
    (fun _ _ _ hi hs => ⟨inv_step hi.1 hs, countedLe_step hi.1 hi.2 hs⟩)
    ⟨inv_start, countedLe_start⟩ h
  exact this.2

/-- No reference is taken on a chunk whose count is full. -/
def BelowLimit (s : Cache) : Action → Prop
  | .initiate _ (.claim w) => (s.chunk w.chunk).subscribers < maxSubscribers
  | _ => True

instance (s : Cache) : (a : Action) → Decidable (s.BelowLimit a)
  | .initiate _ a =>
    match a with
    | .claim w => inferInstanceAs (Decidable ((s.chunk w.chunk).subscribers < maxSubscribers))
    | .start _ | .mergeFill | .throw | .rollBack | .enqueue => isTrue trivial
  | .consume .. | .evictor _ | .prepare .. | .prefetch .. | .demand _ => isTrue trivial

/-- The stored count is at least the number of holders. -/
def CountedGe (s : Cache) : Prop := ∀ c, (s.holders c).ncard ≤ (s.chunk c).subscribers

theorem countedGe_step (hI : Inv s) (hle : CountedLe s) (hc : CountedGe s) (hok : s.BelowLimit a)
    (h : s.step cb a = some s') : CountedGe s' := by
  intro c
  rcases outstanding_step hI h with ⟨r, w, rfl, ht⟩ | ⟨r, w, hd⟩ | hk
  · rw [holders_takes ht c, ht.chunk]
    split_ifs with hcw
    · subst hcw
      have hfull : (s.chunk w.chunk).subscribers < maxSubscribers := hok
      rw [Function.update_self, op_addSubscriber,
        Set.ncard_insert_of_notMem (show r ∉ s.holders w.chunk from ht.fresh) (hle.finite _)]
      have := hc w.chunk
      omega
    · rw [Function.update_of_ne hcw]
      exact hc c
  · rw [holders_drops hd c, hd.chunk]
    split_ifs with hcw
    · subst hcw
      have hmem : r ∈ s.holders w.chunk := by
        show s.Holds r w.chunk
        unfold Holds
        rw [hd.self]
        simp
      have := Set.ncard_sdiff_singleton_add_one hmem (hle.finite _)
      have := hc w.chunk
      rw [Function.update_self, op_dropSubscriber]
      omega
    · rw [Function.update_of_ne hcw]
      exact hc c
  · rw [holders_keeps hk, hk.subs]
    exact hc c

/-! ## Taken once, given back once -/

instance (s : Cache) (r c : ℕ) : Decidable (s.Holds r c) :=
  inferInstanceAs (Decidable (_ ∈ List.map _ _))

/-- How often request `r` took and gave back a reference on chunk `c`. -/
structure Tally (s : Cache) : Prop where
  balance : ∀ r c, (s.req r).taken c = (s.req r).dropped c + if s.Holds r c then 1 else 0
  once : ∀ r c, (s.req r).taken c ≤ 1
  early : ∀ r c, (s.req r).phase.early = true → (s.req r).dropped c = 0
  named : ∀ r c, (s.req r).phase = .committed → (s.req r).Names c → (s.req r).taken c = 1

theorem tally_start : Tally start := by
  refine ⟨fun r c => ?_, fun r c => by simp [start], fun r c _ => rfl, ?_⟩
  · simp [start, Holds, outstanding]
  · rintro r c ⟨⟩

theorem claim_early {w : Want} (h : s.step cb (.initiate r (.claim w)) = some s') :
    (s.req r).phase.early = true ∧ (s'.req r).phase ≠ .committed := by
  simp only [step, stepInitiate] at h
  split at h
  · rename_i todo claimed hph
    split_ifs at h
    cases h
    exact ⟨by rw [hph]; rfl, by simp [setReq]⟩
  · cases h

theorem early_step (h : s.step cb a = some s') (r : ℕ)
    (he : (s'.req r).phase.early = true) : (s.req r).phase.early = true := by
  rcases phase_step h r with ⟨hp, -⟩ | ⟨b, rfl⟩
  · rwa [hp] at he
  · simp only [step] at h
    cases b <;> simp only [stepInitiate] at h <;> repeat' split at h
    all_goals cases h
    all_goals simp_all [setReq, setChunk, Phase.early]

/-- A request is committed when it holds every chunk it names. -/
theorem committed_step (hI : Inv s) (h : s.step cb a = some s') (r : ℕ)
    (hc : (s'.req r).phase = .committed) :
    (s'.req r).wants = (s.req r).wants ∧ ((s.req r).phase = .committed ∨
      (s.req r).phase.early = true ∧ a = .initiate r .enqueue ∧
        ∀ c, (s.req r).Names c → s.Holds r c) := by
  rcases phase_step h r with ⟨hp, hw⟩ | ⟨b, rfl⟩
  · exact ⟨hw, Or.inl (hp ▸ hc)⟩
  · simp only [step] at h
    cases b with
    | enqueue =>
      simp only [stepInitiate] at h
      split at h
      · rename_i claimed hph
        cases h
        refine ⟨by simp [setReq], Or.inr ⟨by rw [hph]; rfl, rfl, ?_⟩⟩
        rintro c ⟨w, hw, rfl⟩
        have hout : s.outstanding r = claimed := by simp [outstanding, hph]
        rw [holds_of_phase hout]
        exact List.mem_map_of_mem (((hI.wf r).subscribing [] claimed hph).mem_iff.mpr hw)
      · cases h
    | _ =>
      simp only [stepInitiate] at h
      repeat' split at h
      all_goals cases h
      all_goals simp [setReq] at hc

theorem tally_step (hI : Inv s) (ht : Tally s) (h : s.step cb a = some s') : Tally s' := by
  -- the counts of one request on one chunk, before and after
  have key : ∀ r c, (s'.req r).taken c = (s'.req r).dropped c + (if s'.Holds r c then 1 else 0) ∧
      (s'.req r).taken c ≤ 1 ∧
      ((s'.req r).phase.early = true → (s'.req r).dropped c = (s.req r).dropped c) ∧
      ((s'.req r).phase = .committed → (s'.req r).taken c = (s.req r).taken c) := by
    intro r c
    have hb := ht.balance r c
    have ho := ht.once r c
    rcases outstanding_step hI h with ⟨r', w, rfl, hx⟩ | ⟨r', w, hx⟩ | hx
    · by_cases hr : r = r'
      · subst hr
        have hlate := claim_early h
        have hholds : s'.Holds r c ↔ c = w.chunk ∨ s.Holds r c := by
          unfold Holds
          rw [hx.self]
          simp
        have hfresh := hx.fresh
        have hd := ht.early r c hlate.1
        rw [hx.taken, hx.dropped, Function.update_apply]
        refine ⟨?_, ?_, fun _ => rfl, fun hc => absurd hc hlate.2⟩
        · by_cases hcw : c = w.chunk
          · subst hcw; simp_all
          · simp only [hholds, hcw, false_or, if_false]; exact hb
        · by_cases hcw : c = w.chunk
          · subst hcw; simp_all
          · rw [if_neg hcw]; exact ho
      · have hsame := hx.others r hr
        have hholds : s'.Holds r c ↔ s.Holds r c := by
          unfold Holds
          rw [hsame.1]
        rw [hsame.2]
        simp only [hholds]
        exact ⟨hb, ho, fun _ => trivial, fun _ => trivial⟩
    · by_cases hr : r = r'
      · subst hr
        have hholds : s.Holds r c ↔ c = w.chunk ∨ s'.Holds r c := by
          unfold Holds
          rw [hx.self]
          simp
        have hlast := hx.last
        rw [hx.taken, hx.dropped, Function.update_apply]
        refine ⟨?_, ho, fun he => ?_, fun _ => rfl⟩
        · by_cases hcw : c = w.chunk
          · subst hcw; simp_all
          · simp only [hholds, hcw, false_or] at hb
            rw [if_neg hcw]; exact hb
        · rw [hx.late] at he
          cases he
      · have hsame := hx.others r hr
        have hholds : s'.Holds r c ↔ s.Holds r c := by
          unfold Holds
          rw [hsame.1]
        rw [hsame.2]
        simp only [hholds]
        exact ⟨hb, ho, fun _ => trivial, fun _ => trivial⟩
    · rw [hx.taken, hx.dropped]
      simp only [hx.holds]
      exact ⟨hb, ho, fun _ => trivial, fun _ => trivial⟩
  refine ⟨fun r c => (key r c).1, fun r c => (key r c).2.1, fun r c he => ?_, fun r c hc hn => ?_⟩
  · rw [(key r c).2.2.1 he]
    exact ht.early r c (early_step h r he)
  · rw [(key r c).2.2.2 hc]
    obtain ⟨hw, hcm | ⟨he, -, hh⟩⟩ := committed_step hI h r hc
    · exact ht.named r c hcm (by unfold Request.Names at *; rwa [hw] at hn)
    · have hhold : s.Holds r c := hh c (by unfold Request.Names at *; rwa [hw] at hn)
      have hb := ht.balance r c
      rw [ht.early r c he, if_pos hhold] at hb
      exact hb

/-! ## Result -/

/-- A committed request that names chunk `c`, whose reference the evictor has
    not given back. -/
def Unreleased (s : Cache) (r c : ℕ) : Prop :=
  (s.req r).phase = .committed ∧ (s.req r).Names c ∧ (s.req r).dropped c = 0

/-- A call under way that holds chunk `c`. -/
def UnderWay (s : Cache) (r c : ℕ) : Prop :=
  (s.req r).phase ≠ .committed ∧ (s.req r).dropped c < (s.req r).taken c

theorem outstanding_subset (hI : Inv s)
    (hp : (s.req r).phase = .committed) : s.outstanding r ⊆ (s.req r).wants := by
  rw [outstanding_committed hp]
  split_ifs
  · exact List.nil_subset _
  · unfold EvictorPc.todoOf
    split
    · rename_i r' todo he
      split_ifs with hr
      · subst hr
        exact (hI.dropping r' todo he).2.2.2.subset
      · exact List.Subset.refl _
    · exact List.Subset.refl _

theorem unreleased_iff (hI : Inv s) (ht : Tally s) (r c : ℕ) :
    s.Unreleased r c ↔ (s.req r).phase = .committed ∧ s.Holds r c := by
  have hb := ht.balance r c
  have ho := ht.once r c
  constructor
  · rintro ⟨hp, hn, hd⟩
    refine ⟨hp, ?_⟩
    by_contra hh
    rw [ht.named r c hp hn, hd, if_neg hh] at hb
    cases hb
  · rintro ⟨hp, hh⟩
    rw [if_pos hh] at hb
    obtain ⟨w, hw, rfl⟩ := List.mem_map.mp hh
    exact ⟨hp, ⟨w, outstanding_subset hI hp hw, rfl⟩, by omega⟩

theorem underWay_iff (ht : Tally s) (r c : ℕ) :
    s.UnderWay r c ↔ (s.req r).phase ≠ .committed ∧ s.Holds r c := by
  have hb := ht.balance r c
  unfold UnderWay
  by_cases hh : s.Holds r c
  · rw [if_pos hh] at hb
    simp only [hh, and_true]
    constructor
    · exact fun h => h.1
    · exact fun h => ⟨h, by omega⟩
  · rw [if_neg hh] at hb
    simp only [hh, and_false, iff_false, not_and]
    omega

theorem holders_eq (hI : Inv s) (ht : Tally s) (c : ℕ) :
    s.holders c = {r | s.Unreleased r c} ∪ {r | s.UnderWay r c} := by
  ext r
  simp only [holders, Set.mem_ofPred_eq, Set.mem_union, unreleased_iff hI ht, underWay_iff ht]
  tauto

theorem ncard_holders (hI : Inv s) (ht : Tally s) (hc : CountedLe s) (c : ℕ) :
    (s.holders c).ncard = {r | s.Unreleased r c}.ncard + {r | s.UnderWay r c}.ncard := by
  have hfin := hc.finite c
  rw [holders_eq hI ht] at hfin ⊢
  refine Set.ncard_union_eq ?_ (hfin.subset Set.subset_union_left)
    (hfin.subset Set.subset_union_right)
  rw [Set.disjoint_left]
  exact fun r h1 h2 => h2.1 h1.1

theorem tally_settled (ht : Tally s)
    (h : (s.req r).phase = .committed ∧ (s.req r).released = true ∨ (s.req r).phase = .aborted)
    (c : ℕ) : (s.req r).dropped c = (s.req r).taken c := by
  have hout : s.outstanding r = [] := by
    rcases h with ⟨h1, h2⟩ | h
    · rw [outstanding_committed h1, h2, if_pos rfl]
    · simp [outstanding, h]
  have hb := ht.balance r c
  rw [if_neg (by rw [holds_of_phase hout]; simp)] at hb
  exact hb.symm

theorem ret_markEvicting {c : ℕ} (h : s.ret c (.markEvicting true) = true) :
    (s.chunk c).subscribers = 0 := by
  simp only [ret, View.attempt] at h
  split_ifs at h with hg
  · exact hg.2.2 trivial
  · cases h

/-- **Subscribers are counted.** In every run in which no reference is taken on
    a chunk whose count is full: the stored count is the number of committed
    requests that name the chunk and whose reference is not given back, plus the
    number of calls under way that hold it; a reference is taken at most once and
    given back at most once, and exactly once when the request is released or
    rolled back; and `mark_evicting(true)` succeeds on no chunk that an
    unreleased request names. -/
theorem subscribers_counted {as : List Action} {s : Cache}
    (h : run (guarded (step cb) BelowLimit) start as = some s) :
    (∀ c, (s.chunk c).subscribers =
      {r | s.Unreleased r c}.ncard + {r | s.UnderWay r c}.ncard) ∧
    (∀ r c, (s.req r).dropped c ≤ (s.req r).taken c ∧ (s.req r).taken c ≤ 1 ∧
      ((s.req r).released = true ∨ (s.req r).phase = .aborted →
        (s.req r).dropped c = (s.req r).taken c)) ∧
    (∀ c, s.ret c (.markEvicting true) = true → ∀ r, ¬s.Unreleased r c) := by
  obtain ⟨hI, hle, hge, ht⟩ : Inv s ∧ CountedLe s ∧ CountedGe s ∧ Tally s := by
    refine run_invariant (I := fun s => Inv s ∧ CountedLe s ∧ CountedGe s ∧ Tally s) ?_
      ⟨inv_start, countedLe_start, fun c => by rw [holders_start]; simp [start], tally_start⟩ h
    rintro s a s' ⟨hI, hle, hge, ht⟩ hs
    obtain ⟨hok, hs⟩ := guarded_eq_some.mp hs
    exact ⟨inv_step hI hs, countedLe_step hI hle hs, countedGe_step hI hle hge hok hs,
      tally_step hI ht hs⟩
  refine ⟨fun c => ?_, fun r c => ⟨?_, ht.once r c, fun hr => ?_⟩, fun c hc r hr => ?_⟩
  · rw [← ncard_holders hI ht hle]
    exact le_antisymm (hle.le c) (hge c)
  · have := ht.balance r c
    omega
  · refine tally_settled ht (hr.imp (fun h => ⟨(hI.released r h).1, h⟩) id) c
  · have hmem : r ∈ s.holders c := ((unreleased_iff hI ht r c).mp hr).2
    have hpos : 0 < (s.holders c).ncard := (Set.ncard_pos (hle.finite c)).mpr ⟨r, hmem⟩
    have h0 := ret_markEvicting hc
    have := hge c
    omega

/-! ## A full count

Runs on chunk `0` of 4096 bytes: its count fills up, and then a subscriber is
lost. -/

/-- The consumer of `r` disposes of it, and a round of the evictor releases it. -/
def release (r : ℕ) : List Action := dispose r ++ [Action.evictor (.endRetire false)]

theorem subscribers_counted_released : ∃ s,
    run (guarded (step 4096) BelowLimit) start (subscribe 0 ++ release 0 ++ subscribe 1) = some s ∧
      (s.req 0).released = true ∧ (s.req 0).dropped 0 = (s.req 0).taken 0 ∧
      (s.chunk 0).subscribers = {r | s.Unreleased r 0}.ncard + {r | s.UnderWay r 0}.ncard := by
  have h : ∃ s, run (guarded (step 4096) BelowLimit) start
      (subscribe 0 ++ release 0 ++ subscribe 1) = some s ∧ (s.req 0).released = true :=
    ⟨_, rfl, rfl⟩
  obtain ⟨s, hrun, hrel⟩ := h
  obtain ⟨hcount, hrefs, -⟩ := subscribers_counted hrun
  exact ⟨s, hrun, hrel, (hrefs 0 0).2.2 (Or.inl hrel), hcount 0⟩

/-- A request for it that was queued and nothing else. -/
def subscriber : Request where
  wants := [firstChunk]
  phase := .committed
  producer := .queued
  taken := Function.update (fun _ => 0) 0 1

theorem run_subscribe {n : ℕ} (hn : s.req n = {}) :
    run (step 4096) s (subscribe n) = some { s with
      chunk := Function.update s.chunk 0
        ((View.attempt (.mergeFill whole) (s.op 0 .addSubscriber)).apply
          (s.op 0 .addSubscriber)).1
      req := Function.update s.req n subscriber
      queue := s.queue ++ [n] } := by
  have htouch : firstChunk.Touches 4096 := by decide
  have hfill : firstChunk.fill 4096 = whole := by decide
  have hchunk : firstChunk.chunk = 0 := rfl
  simp [subscribe, step, stepInitiate, hn, htouch, setReq, setChunk, op, hfill, hchunk,
    subscriber, ProducerStage.advance, ProducerStage.rank]

theorem run_release {n : ℕ} (hn : s.req n = subscriber) (he : s.evictor = .idle)
    (hq : n ∈ s.queue) :
    run (step 4096) s (release n) = some { s with
      chunk := Function.update s.chunk 0 (s.op 0 .dropSubscriber)
      req := Function.update s.req n { subscriber with
        consumer := .disposed
        released := true
        dropped := Function.update (fun _ => 0) 0 1 }
      queue := s.queue.erase n
      batch := s.batch ++ [n] } := by
  simp [release, dispose, step, stepEvictor, hn, setReq, setChunk, op, he, hq, firstChunk,
    subscriber, ConsumerStage.mark, ConsumerStage.rank]

/-- Requests `m, …, n - 1` are subscribed, and the stored count is `k`. -/
structure Subscribed (m n k : ℕ) (s : Cache) : Prop where
  evictor : s.evictor = .idle
  queue : ∀ r, m ≤ r → r < n → r ∈ s.queue
  req : ∀ r, m ≤ r → s.req r = if r < n then subscriber else {}
  pins : (s.chunk 0).pins = 0
  count : (s.chunk 0).subscribers = k

/-- Only the extent and the count of chunk `0` change when it gets a subscriber. -/
theorem subscribe_chunk (s : Cache) :
    ∃ g, ((View.attempt (.mergeFill whole) (s.op 0 .addSubscriber)).apply
      (s.op 0 .addSubscriber)).1 = { s.chunk 0 with
        fill := g, subscribers := (s.op 0 .addSubscriber).subscribers } := by
  have hadd : s.op 0 .addSubscriber = { s.chunk 0 with
      subscribers := (s.op 0 .addSubscriber).subscribers } := by
    simp only [op, View.attempt]
    split_ifs <;> rfl
  rw [hadd]
  simp only [View.attempt]
  split_ifs <;> exact ⟨_, rfl⟩

theorem run_subscribes (N : ℕ) : ∃ s, run (step 4096) start ((List.range N).flatMap subscribe) =
    some s ∧ Subscribed 0 N (min N maxSubscribers) s ∧ s.prepare 0 = none ∧
      (s.chunk 0).state = .empty := by
  refine run_range (step 4096) subscribe (P := fun n s => Subscribed 0 n (min n maxSubscribers) s ∧
    s.prepare 0 = none ∧ (s.chunk 0).state = .empty) N ?_ ?_
  · rintro n s - ⟨⟨he, hq, hr, h0, hc⟩, hp, hs⟩
    have hn : s.req n = {} := by rw [hr n (Nat.zero_le n), if_neg (lt_irrefl n)]
    obtain ⟨g, hg⟩ := subscribe_chunk s
    refine ⟨_, run_subscribe hn, ⟨he, ?_, ?_, ?_, ?_⟩, hp, ?_⟩
    · rintro r - hlt
      by_cases h : r = n
      · simp [h]
      · exact List.mem_append_left _ (hq r (Nat.zero_le r) (by omega))
    · rintro r -
      by_cases h : r = n
      · simp [h]
      · simp only [Function.update_of_ne h]
        rw [hr r (Nat.zero_le r)]
        simp only [show r < n + 1 ↔ r < n by omega]
    · simp only [Function.update_self, hg, h0]
    · simp only [Function.update_self, hg, op_addSubscriber, hc]
      omega
    · simp only [Function.update_self, hg, hs]
  · exact ⟨⟨rfl, fun r _ h => absurd h (Nat.not_lt_zero r), fun r _ => rfl, rfl, rfl⟩, rfl, rfl⟩

theorem subscribers_le_holders_full : ∃ s, run (step 4096) start
    ((List.range 70000).flatMap subscribe) = some s ∧ CountedLe s := by
  obtain ⟨s, h, -⟩ := run_subscribes 70000
  exact ⟨s, h, subscribers_le_holders h⟩

/-- `prepare_request` on `r` gives chunk `0` its buffer. -/
theorem run_prepare (hr : s.req r = subscriber) (hp : s.prepare 0 = none)
    (h0 : (s.chunk 0).pins = 0) (hs : (s.chunk 0).state = .empty) :
    ∃ as s', run (step 4096) s as = some s' ∧ s'.req = s.req ∧ s'.queue = s.queue ∧
      s'.evictor = s.evictor ∧ s'.chunk 0 = { s.chunk 0 with state := .allocated } := by
  refine ⟨[.prepare 0 (.call r), .prepare 0 .next, .prepare 0 .next, .prepare 0 (.allocated 1),
    .prepare 0 .next, .prepare 0 .next, .prepare 0 .next], ?_⟩
  simp [step, stepPrepare, hr, hp, h0, hs, setPrepare, setChunk, op, ret, subscriber, passGate,
    ConsumerStage.rank, firstChunk, View.attempt, View.transition, Attempt.apply]

theorem run_releases {N k : ℕ} (h : Subscribed 0 N k s) (hs : (s.chunk 0).state = .allocated)
    {m : ℕ} (hm : m ≤ N) :
    ∃ s', run (step 4096) s ((List.range m).flatMap release) = some s' ∧
      Subscribed m N (k - m) s' ∧ (s'.chunk 0).state = .allocated := by
  refine run_range (step 4096) release
    (P := fun m s => Subscribed m N (k - m) s ∧ (s.chunk 0).state = .allocated) m ?_ ⟨h, hs⟩
  rintro n s hlt ⟨⟨he, hq, hr, h0, hc⟩, hs⟩
  have hn : s.req n = subscriber := by rw [hr n le_rfl, if_pos (by omega)]
  have hdrop : s.op 0 .dropSubscriber = { s.chunk 0 with
      subscribers := (s.op 0 .dropSubscriber).subscribers } := by
    simp only [op, View.attempt]
    split_ifs <;> rfl
  refine ⟨_, run_release hn he (hq n le_rfl (by omega)), ⟨he, ?_, ?_, ?_, ?_⟩, ?_⟩
  · intro r hle hlt
    exact (List.mem_erase_of_ne (by omega)).mpr (hq r (by omega) hlt)
  · intro r hle
    simp only [Function.update_of_ne (show r ≠ n by omega)]
    exact hr r (by omega)
  · simp only [Function.update_self]
    rw [hdrop]
    exact h0
  · simp only [Function.update_self, op_dropSubscriber, hc]
    omega
  · simp only [Function.update_self]
    rw [hdrop]
    exact hs

theorem subscriber_unreleased (h : s.req r = subscriber) : s.Unreleased r 0 := by
  unfold Unreleased
  rw [h]
  exact ⟨rfl, ⟨firstChunk, by simp [subscriber], rfl⟩, rfl⟩

/-- A call under way is counted though its request is not committed; 65536
    subscribers are counted as 65535; and after 65535 of them are released, the
    chunk of the last one is evicted as if it had no subscriber. -/
theorem full_count_loses_subscriber :
    (∃ as s, run (step 4096) start as = some s ∧ (s.chunk 0).subscribers = 1 ∧
      ∀ r, ¬s.Unreleased r 0) ∧
    (∃ as s, run (step 4096) start as = some s ∧ (s.chunk 0).subscribers = 65535 ∧
      {r | s.Unreleased r 0}.ncard = 65536) ∧
    (∃ as s, run (step 4096) start as = some s ∧ s.ret 0 (.markEvicting true) = true ∧
      s.Unreleased 65535 0) := by
  obtain ⟨s, hrun, hsub, hp, hs⟩ := run_subscribes 65536
  refine ⟨?_, ⟨_, s, hrun, hsub.count, ?_⟩, ?_⟩
  · refine ⟨[.initiate 0 (.start [firstChunk]), .initiate 0 (.claim firstChunk)], _, rfl, rfl, ?_⟩
    rintro r ⟨hc, -, -⟩
    by_cases h : r = 0
    · subst h; cases hc
    · simp [setReq, setChunk, start, h] at hc
  · have hset : {r | s.Unreleased r 0} = (Finset.range 65536 : Set ℕ) := by
      ext r
      simp only [Set.mem_ofPred_eq, Finset.coe_range, Set.mem_Iio]
      have hr := hsub.req r (Nat.zero_le r)
      constructor
      · intro hu
        by_contra hge
        rw [if_neg hge] at hr
        have := hu.1
        rw [hr] at this
        cases this
      · intro hlt
        rw [if_pos hlt] at hr
        exact subscriber_unreleased hr
    rw [hset, Set.ncard_coe_finset, Finset.card_range]
  · have hlast : s.req 65535 = subscriber := by
      rw [hsub.req _ (Nat.zero_le _), if_pos (by norm_num)]
    obtain ⟨bs, s1, hrun1, hreq, hq, he, hchunk⟩ := run_prepare hlast hp hsub.pins hs
    have hsub1 : Subscribed 0 65536 65535 s1 := by
      refine ⟨by rw [he]; exact hsub.evictor, by rw [hq]; exact hsub.queue, by
        rw [hreq]; exact hsub.req, by rw [hchunk]; exact hsub.pins, by
        rw [hchunk]; exact hsub.count⟩
    obtain ⟨s2, hrun2, hsub2, hs2⟩ := run_releases hsub1 (by rw [hchunk])
      (show 65535 ≤ 65536 by norm_num)
    refine ⟨_, s2, run_trans (run_trans hrun hrun1) hrun2, ?_, subscriber_unreleased ?_⟩
    · have hcount : (s2.chunk 0).subscribers = 0 := hsub2.count
      simp [ret, View.attempt, hs2, hsub2.pins, hcount, Attempt.apply]
    · rw [hsub2.req _ le_rfl, if_pos (by norm_num)]

end Cache

end Sirius.IoCache
