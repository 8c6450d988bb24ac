import Sirius.IoCache.CacheSubscribers

/-!
# Buffers stay reachable

The evictor reclaims the buffers of the chunks that a request in its batch
names, and retires a request when each of its chunks is `empty` or has a
subscriber. A buffer that no request in the queue or the batch names is never
reclaimed.

`prepare_request` checks that the consumer has not gone past the request before
it attaches buffers, but the check and the attach loop are separate steps
(`retired_while_attaching`).

* `buffers_reachable`: the runs in which the evictor retires no request too early,
  and counts no call under way as a subscriber.
-/

namespace Sirius.IoCache

open Sirius.Common Sirius.Common.CasLoop ChunkFill ChunkState

/-- The chunk owns a staging buffer. -/
def ChunkState.View.HasBuffer (v : View) : Prop := v.state ≠ .empty ∧ v.state ≠ .queued

/-- The call is past its last `has_fallen_behind` and has not ended its attach
    loop. -/
def PreparePc.attachWindow : PreparePc → Bool
  | .attaching .. | .attached .. => true
  | _ => false

namespace Cache

variable {cb : ℕ}

/-- Request `r` is in the eviction queue or in the evictor's batch. -/
def Tracked (s : Cache) (r : ℕ) : Prop := r ∈ s.queue ∨ r ∈ s.batch

/-! ## Steps -/

variable {s s' : Cache} {a : Action} {r c p : ℕ}

/-- Only the evictor forgets a request, when it has checked all its chunks. -/
theorem tracked_step (h : s.step cb a = some s') (ht : s.Tracked r) :
    s'.Tracked r ∨ a = .evictor .check ∧ s.evictor = .checking r [] := by
  cases a with
  | initiate r' b =>
    left
    simp only [step] at h
    cases b <;> simp only [stepInitiate] at h <;> repeat' split at h
    all_goals cases h
    all_goals first | exact ht | skip
    exact ht.imp (List.mem_append_left _) id
  | consume r' dst =>
    simp only [step] at h
    split_ifs at h
    cases h
    exact Or.inl ht
  | evictor b =>
    simp only [step] at h
    cases b with
    | absorb r' =>
      left
      simp only [stepEvictor] at h
      split_ifs at h
      cases h
      by_cases hr : r = r'
      · right
        simp [hr]
      · exact ht.imp (List.mem_erase_of_ne hr).mpr (List.mem_append_left _)
    | check =>
      simp only [stepEvictor] at h
      split at h
      · split_ifs at h <;> cases h <;> exact Or.inl ht
      · rename_i r' he
        cases h
        by_cases hr : r = r'
        · exact Or.inr ⟨rfl, by rw [he, hr]⟩
        · exact Or.inl (ht.imp id (List.mem_erase_of_ne hr).mpr)
      · cases h
    | _ =>
      simp only [stepEvictor] at h
      repeat' split at h
      all_goals cases h
      all_goals exact Or.inl ht
  | prepare p b =>
    have := stepPrepare_tracking h
    exact Or.inl (by unfold Tracked; rwa [this.queue, this.batch])
  | prefetch f b =>
    have := stepPrefetch_tracking h
    exact Or.inl (by unfold Tracked; rwa [this.queue, this.batch])
  | demand b =>
    have := stepDemand_tracking h
    exact Or.inl (by unfold Tracked; rwa [this.queue, this.batch])

/-- Only `mark_allocated` gives a chunk a buffer. -/
theorem op_hasBuffer {o : Op} (hp : PinsInUse s)
    (ho : o ≠ .markAllocated) (hr : o = .releaseRead → 0 < (s.chunk c).pins)
    (hb : (s.op c o).HasBuffer) : (s.chunk c).HasBuffer := by
  unfold op at hb
  cases o with
  | releaseRead =>
    have := hp c (hr rfl)
    exact ⟨by rw [this]; simp, by rw [this]; simp⟩
  | markAllocated => exact absurd rfl ho
  | _ =>
    simp only [View.attempt, View.transition, View.pinOnce] at hb
    split_ifs at hb
    all_goals first | exact hb | simp_all [Attempt.apply, View.HasBuffer, View.Readable]
    all_goals grind

theorem buffer_step (hp : PinsInUse s) (h : s.step cb a = some s') (hb : (s'.chunk c).HasBuffer) :
    (s.chunk c).HasBuffer ∨
      ∃ p r todo n, a = .prepare p .next ∧ s.prepare p = some (r, .attached c todo n) := by
  rcases chunk_step h with hc | ⟨c', o, hop, hc⟩
  · rw [hc] at hb
    exact Or.inl hb
  · rw [hc] at hb
    by_cases hcc : c = c'
    · subst hcc
      rw [Function.update_self] at hb
      cases hop with
      | markAllocated ha => exact Or.inr ⟨_, _, _, _, rfl, ha⟩
      | unpin hpin => exact Or.inl (op_hasBuffer hp (by simp) (fun _ => hpin) hb)
      | complete ok | loaded ok =>
        cases ok <;> exact Or.inl (op_hasBuffer hp (by simp) (by simp) hb)
      | _ => exact Or.inl (op_hasBuffer hp (by simp) (by simp) hb)
    · rw [Function.update_of_ne hcc] at hb
      exact Or.inl hb

/-- The moves of a `prepare_request` on `r` that goes on. -/
inductive PrepareMove (s : Cache) (r : ℕ) : PreparePc → PreparePc → Prop where
  | late (g : Gate) : PrepareMove s r (.consumerLoad g) (.producerLoad g)
  | early (g : Gate) (h : (s.req r).consumer.rank < ConsumerStage.preparing.rank) :
    PrepareMove s r (.consumerLoad g) (s.passGate r g)
  | behind (g : Gate) : PrepareMove s r (.producerLoad g) .abandon
  | loading (g : Gate) (h : ProducerStage.loading.rank ≤ (s.req r).producer.rank) :
    PrepareMove s r (.producerLoad g) (s.passGate r g)
  | queued (h : (s.req r).producer = .queued) : PrepareMove s r .stage .allocating
  | wait : PrepareMove s r .allocating (.consumerLoad .waiting)
  | allocated (n : ℕ) : PrepareMove s r .allocating (.consumerLoad (.final n))
  | queueChunk (w : Want) (todo : List Want) (n : ℕ) :
    PrepareMove s r (.attaching (w :: todo) (n + 1)) (.attached w.chunk todo n)
  | skipChunk (w : Want) (todo : List Want) (n : ℕ) :
    PrepareMove s r (.attaching (w :: todo) (n + 1)) (.attaching todo (n + 1))
  | allocateChunk (c : ℕ) (todo : List Want) (n n' : ℕ) :
    PrepareMove s r (.attached c todo n) (.attaching todo n')
  | endAttach (todo : List Want) (n : ℕ) :
    PrepareMove s r (.attaching todo n) (.verifying (s.req r).wants)
  | verify (w : Want) (todo : List Want) :
    PrepareMove s r (.verifying (w :: todo)) (.verifying todo)
  | verified : PrepareMove s r (.verifying []) .markPreparing
  | markPreparing : PrepareMove s r .markPreparing .markPrepared

variable {pc' pc : PreparePc}

theorem prepare_move {b : PrepareAct} (h : s.stepPrepare p b = some s')
    (hp : s'.prepare p = some (r, pc')) :
    pc' = .consumerLoad .entry ∧ (s.req r).phase = .committed ∨
      ∃ pc, s.prepare p = some (r, pc) ∧ PrepareMove s r pc pc' := by
  cases b <;> simp only [stepPrepare] at h <;> repeat' split at h
  all_goals cases h
  all_goals
    simp only [setPrepare, setChunk, setProducer, setReq, Function.update_self, Option.some.injEq,
      Prod.mk.injEq, reduceCtorEq] at hp
  all_goals obtain ⟨rfl, rfl⟩ := hp
  all_goals
    first
      | (rename_i hg; exact Or.inl ⟨rfl, hg.2⟩)
      | (refine Or.inr ⟨_, by assumption, ?_⟩; first
          | exact .late _
          | exact .early _ (by omega)
          | exact .behind _
          | exact .loading _ (by omega)
          | exact .queued (by assumption)
          | constructor)

/-- How a `prepare_request` comes into its attach loop: the consumer is not past
    the request, or the producer is `loading` or later. -/
theorem attachWindow_of_move (h : PrepareMove s r pc pc') (hm : pc'.attachWindow = true) :
    pc.attachWindow = true ∨ (s.req r).consumer.rank < ConsumerStage.preparing.rank ∨
      ∃ n, pc = .producerLoad (.final n) ∧
        ProducerStage.loading.rank ≤ (s.req r).producer.rank := by
  cases h with
  | early g hc => exact Or.inr (Or.inl hc)
  | loading g hp =>
    cases g with
    | final n => exact Or.inr (Or.inr ⟨n, rfl, hp⟩)
    | _ => cases hm
  | queueChunk | skipChunk | allocateChunk => exact Or.inl rfl
  | _ => cases hm

/-! ## The invariant -/

structure Reclaimable (s : Cache) : Prop where
  called : ∀ p r pc, s.prepare p = some (r, pc) → (s.req r).phase = .committed
  attaching : ∀ p r todo n, s.prepare p = some (r, .attaching todo n) → todo ⊆ (s.req r).wants
  attached : ∀ p r c todo n, s.prepare p = some (r, .attached c todo n) →
    (s.req r).Names c ∧ todo ⊆ (s.req r).wants
  tracked : ∀ p r pc, s.prepare p = some (r, pc) → pc.attachWindow = true → s.Tracked r
  owned : ∀ c, (s.chunk c).HasBuffer → ∃ r, s.Tracked r ∧ (s.req r).Names c
  checking : ∀ r todo, s.evictor = .checking r todo →
    (∀ p pc, s.prepare p = some (r, pc) → pc.attachWindow = false) ∧
    ∀ w ∈ (s.req r).wants, w ∉ todo → (s.chunk w.chunk).HasBuffer →
      ∃ r', r' ≠ r ∧ s.Tracked r' ∧ (s.req r').Names w.chunk

/-- When the evictor starts to check whether it can retire a request, no
    `prepare_request` on it is past its last `has_fallen_behind`. None comes past
    it on account of the producer when the request is retired or being checked.
    And a chunk is not kept by calls under way alone when the evictor checks its
    subscribers. -/
def SafeRetire (s : Cache) : Action → Prop
  | .evictor (.startCheck r) => ∀ p pc, s.prepare p = some (r, pc) → pc.attachWindow = false
  | .evictor .check =>
    ∀ r w todo, s.evictor = .checking r (w :: todo) → ∀ r', s.UnderWay r' w.chunk →
      ∃ q, (s.req q).phase = .committed ∧ (s.req q).released = false ∧ (s.req q).Names w.chunk
  | .prepare p _ => ∀ r n, s.prepare p = some (r, .producerLoad (.final n)) →
    ProducerStage.loading.rank ≤ (s.req r).producer.rank →
      s.Tracked r ∧ ∀ todo, s.evictor ≠ .checking r todo
  | _ => True

theorem Inv.committed (hI : Inv s) (h : s.Tracked r) : (s.req r).phase = .committed :=
  h.elim (hI.queued r) (hI.batched r)

theorem called_step (hR : Reclaimable s) (h : s.step cb a = some s')
    (hp : s'.prepare p = some (r, pc)) : (s.req r).phase = .committed := by
  rcases (calls_step h).2.1 p with hsame | ⟨b, rfl⟩
  · exact hR.called p r pc (hsame ▸ hp)
  · rcases prepare_move h hp with ⟨-, hc⟩ | ⟨pc0, h0, -⟩
    · exact hc
    · exact hR.called p r pc0 h0

variable {todo : List Want}

theorem attaching_step (hR : Reclaimable s) (h : s.step cb a = some s') {p r n : ℕ}
    (hp : s'.prepare p = some (r, .attaching todo n)) : todo ⊆ (s'.req r).wants := by
  rw [(committed_stable h (called_step hR h hp)).2]
  rcases (calls_step h).2.1 p with hsame | ⟨b, rfl⟩
  · exact hR.attaching p r todo n (hsame ▸ hp)
  · rcases prepare_move h hp with ⟨hc, -⟩ | ⟨pc0, h0, hm⟩
    · cases hc
    · generalize hpc : PreparePc.attaching todo n = pc' at hm
      cases hm with
      | early g | loading g =>
        cases g <;> cases hpc
        exact List.Subset.refl _
      | skipChunk w todo n =>
        cases hpc
        exact fun x hx => hR.attaching p r _ _ h0 (List.mem_cons_of_mem _ hx)
      | allocateChunk c todo n n' =>
        cases hpc
        exact (hR.attached p r c todo n h0).2
      | _ => cases hpc

theorem attached_step (hR : Reclaimable s) (h : s.step cb a = some s') {p r c n : ℕ}
    (hp : s'.prepare p = some (r, .attached c todo n)) :
    (s'.req r).Names c ∧ todo ⊆ (s'.req r).wants := by
  have hcom := called_step hR h hp
  rw [(committed_stable h hcom).2]
  suffices (s.req r).Names c ∧ todo ⊆ (s.req r).wants from
    ⟨names_stable h hcom this.1, this.2⟩
  rcases (calls_step h).2.1 p with hsame | ⟨b, rfl⟩
  · exact hR.attached p r c todo n (hsame ▸ hp)
  · rcases prepare_move h hp with ⟨hc, -⟩ | ⟨pc0, h0, hm⟩
    · cases hc
    · generalize hpc : PreparePc.attached c todo n = pc' at hm
      cases hm with
      | early g | loading g => cases g <;> cases hpc
      | queueChunk w todo n =>
        cases hpc
        have hsub := hR.attaching p r _ _ h0
        exact ⟨⟨w, hsub (List.mem_cons_self ..), rfl⟩,
          fun x hx => hsub (List.mem_cons_of_mem _ hx)⟩
      | _ => cases hpc

/-- A request whose consumer is not past it is tracked. -/
theorem tracked_of_early (hI : Inv s) (hc : (s.req r).phase = .committed)
    (he : (s.req r).consumer.rank < ConsumerStage.preparing.rank) :
    (s.req r).released = false ∧ s.Tracked r := by
  have hrel : (s.req r).released = false := by
    by_contra hr
    have := (hI.released r (by simpa using hr)).2
    rw [this] at he
    simp [ConsumerStage.rank] at he
  exact ⟨hrel, hI.tracked r hc hrel⟩

/-- A call in its attach loop was there before the step, or its request is
    tracked and not being checked. -/
theorem attachWindow_step (hI : Inv s) (hR : Reclaimable s) (hok : s.SafeRetire a)
    (h : s.step cb a = some s') (hp : s'.prepare p = some (r, pc'))
    (hm : pc'.attachWindow = true) :
    (∃ pc, s.prepare p = some (r, pc) ∧ pc.attachWindow = true) ∨
      s.Tracked r ∧ ∀ todo, s.evictor ≠ .checking r todo := by
  rcases (calls_step h).2.1 p with hsame | ⟨b, rfl⟩
  · exact Or.inl ⟨pc', hsame ▸ hp, hm⟩
  rcases prepare_move h hp with ⟨rfl, -⟩ | ⟨pc, h0, hmove⟩
  · cases hm
  rcases attachWindow_of_move hmove hm with hw | he | ⟨n, rfl, hload⟩
  · exact Or.inl ⟨pc, h0, hw⟩
  · obtain ⟨hrel, ht⟩ := tracked_of_early hI (called_step hR h hp) he
    refine Or.inr ⟨ht, fun todo hch => ?_⟩
    rw [(hI.checking r todo hch).2] at hrel
    cases hrel
  · exact Or.inr (hok r n h0 hload)

theorem tracked_stays (hI : Inv s) (hR : Reclaimable s) (hok : s.SafeRetire a)
    (h : s.step cb a = some s') (hp : s'.prepare p = some (r, pc))
    (hm : pc.attachWindow = true) : s'.Tracked r := by
  rcases attachWindow_step hI hR hok h hp hm with ⟨pc0, h0, hm0⟩ | ⟨ht, hn⟩
  · refine (tracked_step h (hR.tracked p r pc0 h0 hm0)).resolve_right ?_
    rintro ⟨-, hch⟩
    rw [(hR.checking r [] hch).1 p pc0 h0] at hm0
    cases hm0
  · exact (tracked_step h ht).resolve_right fun hx => hn [] hx.2

theorem owned_step (hI : Inv s) (hP : PinsInUse s) (hR : Reclaimable s)
    (h : s.step cb a = some s') (hb : (s'.chunk c).HasBuffer) :
    ∃ r, s'.Tracked r ∧ (s'.req r).Names c := by
  rcases buffer_step hP h hb with hb0 | ⟨p, r, todo, n, rfl, hp⟩
  · obtain ⟨r, ht, hn⟩ := hR.owned c hb0
    rcases tracked_step h ht with ht' | ⟨-, hch⟩
    · exact ⟨r, ht', names_stable h (hI.committed ht) hn⟩
    · -- `r` is retired: another request names the chunk
      obtain ⟨w, hw, rfl⟩ := hn
      obtain ⟨r', hne, ht2, hn2⟩ := (hR.checking r [] hch).2 w hw (by simp) hb0
      refine ⟨r', (tracked_step h ht2).resolve_right ?_, names_stable h (hI.committed ht2) hn2⟩
      rintro ⟨-, hch'⟩
      rw [hch] at hch'
      cases hch'
      exact hne rfl
  · have ht := hR.tracked p r _ hp rfl
    have hn := (hR.attached p r c todo n hp).1
    refine ⟨r, (tracked_step h ht).resolve_right ?_, names_stable h (hI.committed ht) hn⟩
    rintro ⟨hx, -⟩
    cases hx

/-- A chunk that the evictor finds subscribed is named by a request that is not
    released. -/
theorem named_of_subscribed (hI : Inv s) (hle : CountedLe s) (hT : Tally s) {w : Want}
    (hch : s.evictor = .checking r (w :: todo)) (hok : s.SafeRetire (.evictor .check))
    (hs : (s.chunk w.chunk).subscribers ≠ 0) :
    ∃ r', r' ≠ r ∧ s.Tracked r' ∧ (s.req r').Names w.chunk := by
  have hnamed : ∃ q, (s.req q).phase = .committed ∧ (s.req q).released = false ∧
      (s.req q).Names w.chunk := by
    have hpos : 0 < (s.holders w.chunk).ncard := by
      have := hle.le w.chunk
      omega
    obtain ⟨q, hq⟩ := (Set.ncard_pos (hle.finite _)).mp hpos
    have hhold : s.Holds q w.chunk := hq
    by_cases hc : (s.req q).phase = .committed
    · have hun := (unreleased_iff hI hT q w.chunk).mpr ⟨hc, hhold⟩
      refine ⟨q, hc, ?_, hun.2.1⟩
      by_contra hrel
      have hout := outstanding_committed hc
      rw [if_pos (by simpa using hrel)] at hout
      rw [holds_of_phase hout] at hhold
      cases hhold
    · exact hok r w todo hch q ((underWay_iff hT q w.chunk).mpr ⟨hc, hhold⟩)
  obtain ⟨q, hc, hrel, hn⟩ := hnamed
  refine ⟨q, ?_, hI.tracked q hc hrel, hn⟩
  rintro rfl
  rw [(hI.checking q _ hch).2] at hrel
  cases hrel

theorem checking_stays (hI : Inv s) (hP : PinsInUse s) (hR : Reclaimable s)
    (hok : s.SafeRetire a) (h : s.step cb a = some s') (hch : s.evictor = .checking r todo)
    (hch' : s'.evictor = .checking r todo) :
    (∀ p pc, s'.prepare p = some (r, pc) → pc.attachWindow = false) ∧
    ∀ w ∈ (s'.req r).wants, w ∉ todo → (s'.chunk w.chunk).HasBuffer →
      ∃ r', r' ≠ r ∧ s'.Tracked r' ∧ (s'.req r').Names w.chunk := by
  obtain ⟨hnone, hnamed⟩ := hR.checking r todo hch
  obtain ⟨hb, hrel⟩ := hI.checking r todo hch
  have hcom := hI.batched r hb
  refine ⟨fun p pc hp => ?_, fun w hw hnot hbuf => ?_⟩
  · by_contra hm
    rcases attachWindow_step hI hR hok h hp (by simpa using hm) with ⟨pc0, h0, hm0⟩ | ⟨-, hn⟩
    · rw [hnone p pc0 h0] at hm0
      cases hm0
    · exact hn todo hch
  · rw [(committed_stable h hcom).2] at hw
    have hstay : ∀ r', r' ≠ r → s.Tracked r' → s'.Tracked r' := by
      intro r' hne ht
      refine (tracked_step h ht).resolve_right ?_
      rintro ⟨-, hx⟩
      rw [hch] at hx
      cases hx
      exact hne rfl
    rcases buffer_step hP h hbuf with hb0 | ⟨p, r', todo', n, rfl, hp⟩
    · obtain ⟨r', hne, ht, hn⟩ := hnamed w hw hnot hb0
      exact ⟨r', hne, hstay r' hne ht, names_stable h (hI.committed ht) hn⟩
    · have hne : r' ≠ r := by
        rintro rfl
        cases hnone p _ hp
      have ht := hR.tracked p r' _ hp rfl
      exact ⟨r', hne, hstay r' hne ht,
        names_stable h (hI.committed ht) (hR.attached p r' _ _ _ hp).1⟩

theorem checking_step (hI : Inv s) (hP : PinsInUse s) (hle : CountedLe s) (hT : Tally s)
    (hR : Reclaimable s) (hok : s.SafeRetire a) (h : s.step cb a = some s')
    (hch' : s'.evictor = .checking r todo) :
    (∀ p pc, s'.prepare p = some (r, pc) → pc.attachWindow = false) ∧
    ∀ w ∈ (s'.req r).wants, w ∉ todo → (s'.chunk w.chunk).HasBuffer →
      ∃ r', r' ≠ r ∧ s'.Tracked r' ∧ (s'.req r').Names w.chunk := by
  rcases (calls_step h).1 with he | ⟨b, rfl⟩
  · exact checking_stays hI hP hR hok h (he ▸ hch') hch'
  cases b with
  | startCheck r0 =>
    simp only [step, stepEvictor] at h
    split_ifs at h
    cases h
    cases hch'
    exact ⟨hok, fun w hw hnot => absurd hw hnot⟩
  | check =>
    simp only [step, stepEvictor] at h
    split at h
    · rename_i r0 w todo0 hch
      split_ifs at h with hg
      · cases h
        cases hch'
        obtain ⟨hnone, hnamed⟩ := hR.checking _ _ hch
        refine ⟨hnone, fun w' hw' hnot hbuf => ?_⟩
        by_cases hww : w' = w
        · subst hww
          exact named_of_subscribed hI hle hT hch hok (hg.resolve_left hbuf.1)
        · exact hnamed w' hw' (by simp [hww, hnot]) hbuf
      · cases h
        cases hch'
    · cases h
      cases hch'
    · cases h
  | evict r0 c =>
    simp only [step, stepEvictor] at h
    split at h
    · rename_i pass1 he
      split_ifs at h <;> cases h
      · cases hch'
      · rw [he] at hch'
        cases hch'
    · cases h
  | absorb r0 =>
    simp only [step, stepEvictor] at h
    split_ifs at h with hg
    cases h
    have : s.evictor = .checking r todo := hch'
    rw [hg.1] at this
    cases this
  | endRetire sweep =>
    simp only [step, stepEvictor] at h
    split_ifs at h <;> cases h <;> cases hch'
  | _ =>
    simp only [step, stepEvictor] at h
    repeat' split at h
    all_goals cases h
    all_goals cases hch'

/-! ## Result -/

/-- **Buffers stay reachable.** In every run in which the evictor starts to
    retire no request whose `prepare_request` is in its attach loop, no
    `prepare_request` comes into that loop for a request that is retired or being
    checked, and no call under way is taken for the last subscriber of a chunk:
    every chunk that owns a buffer is named by a request in the eviction queue or
    the batch. -/
theorem buffers_reachable {as : List Action} {s : Cache} (hrun : run (step cb) start as = some s)
    (hok : Meets (step cb) SafeRetire start as) {c : ℕ} (hb : (s.chunk c).HasBuffer) :
    ∃ r, (r ∈ s.queue ∨ r ∈ s.batch) ∧ (s.req r).Names c := by
  obtain ⟨-, -, -, -, hR⟩ : Inv s ∧ PinsInUse s ∧ CountedLe s ∧ Tally s ∧ Reclaimable s := by
    refine hok.run_invariant
      (I := fun s => Inv s ∧ PinsInUse s ∧ CountedLe s ∧ Tally s ∧ Reclaimable s) ?_ ?_ hrun
    · rintro s a s' ⟨hI, hP, hle, hT, hR⟩ hok h
      refine ⟨inv_step hI h, pinsInUse_step hP h, countedLe_step hI hle h, tally_step hI hT h, ?_⟩
      exact ⟨fun p r pc hp => (committed_stable h (called_step hR h hp)).1,
        fun p r todo n hp => attaching_step hR h hp,
        fun p r c todo n hp => attached_step hR h hp,
        fun p r pc hp hm => tracked_stays hI hR hok h hp hm,
        fun c hb => owned_step hI hP hR h hb,
        fun r todo hch => checking_step hI hP hle hT hR hok h hch⟩
    · refine ⟨inv_start, fun c hc => absurd hc (lt_irrefl 0), countedLe_start, tally_start, ?_⟩
      exact ⟨by rintro p r pc ⟨⟩, by rintro p r todo n ⟨⟩, by rintro p r c todo n ⟨⟩,
        by rintro p r pc ⟨⟩, fun c hc => absurd rfl hc.1, by rintro r todo ⟨⟩⟩
  exact hR.owned c hb

/-- `prepare_request` on request `r` up to the attach loop. -/
def prepareToAttach (r : ℕ) : List Action :=
  [.prepare 0 (.call r), .prepare 0 .next, .prepare 0 .next, .prepare 0 (.allocated 1),
    .prepare 0 .next]

/-- The rest of it: attach one buffer, verify, and publish. -/
def attachAndPublish : List Action :=
  [.prepare 0 .next, .prepare 0 .next, .prepare 0 .next, .prepare 0 .next, .prepare 0 .next,
    .prepare 0 .next, .prepare 0 .next]

/-- The buffer of a released request is still named by it in the batch. -/
theorem buffers_reachable_released : ∃ s, run (step 4096) start (subscribe 0 ++
      prepareToAttach 0 ++ attachAndPublish ++ dispose 0 ++
        [Action.evictor (.startCheck 0), .evictor .check]) = some s ∧
    (s.chunk 0).HasBuffer ∧ ∃ r, (r ∈ s.queue ∨ r ∈ s.batch) ∧ (s.req r).Names 0 := by
  have hrun : ∃ s, run (step 4096) start (subscribe 0 ++ prepareToAttach 0 ++
      attachAndPublish ++ dispose 0 ++ [Action.evictor (.startCheck 0), .evictor .check]) = some s ∧
      (s.chunk 0).state = .allocated := ⟨_, rfl, rfl⟩
  obtain ⟨s, hs, hst⟩ := hrun
  have hbuf : (s.chunk 0).HasBuffer := ⟨by rw [hst]; simp, by rw [hst]; simp⟩
  refine ⟨s, hs, hbuf, buffers_reachable hs ?_ hbuf⟩
  simp only [subscribe, prepareToAttach, attachAndPublish, dispose, List.cons_append,
    List.nil_append]
  iterate 4 refine Meets.cons trivial rfl ?_
  iterate 12 refine Meets.cons (by rintro r n ⟨⟩) rfl ?_
  iterate 7 refine Meets.cons trivial rfl ?_
  refine Meets.cons ?_ rfl (Meets.cons ?_ rfl trivial)
  · rintro (_ | p) pc ⟨⟩
  · -- nobody is under way: request `0` is committed, and there is no other
    rintro r w todo - (_ | r') ⟨hc, ht⟩
    · exact absurd rfl hc
    · exact absurd ht (Nat.not_lt_zero _)

/-- The request is retired between the last check and the attach loop. -/
def retiredActs : List Action :=
  subscribe 0 ++ prepareToAttach 0 ++ dispose 0 ++
    [Action.evictor (.startCheck 0), .evictor .check, .evictor .check] ++ attachAndPublish

/-- The request is retired while a call that then fails holds a reference on the chunk. -/
def rolledBackActs : List Action :=
  subscribe 0 ++ prepareToAttach 0 ++ attachAndPublish ++
    [Action.initiate 1 (.start [firstChunk]), .initiate 1 (.claim firstChunk), .initiate 1 .mergeFill] ++
    dispose 0 ++ [Action.evictor (.startCheck 0), .evictor .check, .evictor .check, .initiate 1 .throw,
      .initiate 1 .rollBack, .initiate 1 .rollBack]

/-- The evictor retires a request between the last check of `prepare_request`
    and its attach loop, or while a call that is about to fail holds a reference
    on its chunk. In both runs no `prepare_request` is in progress at the end,
    chunk `0` owns a buffer, and the queue and the batch are empty. -/
theorem retired_while_attaching :
    (∃ as s, run (step 4096) start as = some s ∧ (∀ p, s.prepare p = none) ∧
      (s.chunk 0).HasBuffer ∧ s.queue = [] ∧ s.batch = []) ∧
    (∃ as s, run (step 4096) start as = some s ∧ (∀ p, s.prepare p = none) ∧
      (∀ r, (s.req r).phase ∈ [.idle, .aborted, .committed]) ∧
      (s.chunk 0).HasBuffer ∧ s.queue = [] ∧ s.batch = []) := by
  refine ⟨⟨retiredActs, ?_⟩, ⟨rolledBackActs, ?_⟩⟩
  · refine ⟨_, rfl, fun p => ?_, ⟨by decide, by decide⟩, rfl, rfl⟩
    cases p <;> rfl
  · refine ⟨_, rfl, fun p => ?_, fun r => ?_, ⟨by decide, by decide⟩, rfl, rfl⟩
    · cases p <;> rfl
    · rcases r with _ | _ | r
      · exact List.mem_cons_of_mem _ (List.mem_cons_of_mem _ (List.mem_singleton.mpr rfl))
      · exact List.mem_cons_of_mem _ (List.mem_cons_self ..)
      · exact List.mem_cons_self ..

end Cache

end Sirius.IoCache
