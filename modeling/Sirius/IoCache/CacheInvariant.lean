import Sirius.Common.Run
import Sirius.IoCache.Cache

/-!
# What the cache keeps in every run

Facts that the results on subscribers, reclamation and extents share: who is in
the eviction queue and the evictor's batch, and which references a request
still holds (`outstanding`).

* `inv_run`: they hold in every reachable state.
* `outstanding_step`: a step takes one reference, gives one back, or leaves the
  references and the stored counts alone.
-/

namespace Sirius.IoCache

open Sirius.Common Sirius.Common.CasLoop ChunkFill ChunkState

/-! ## References -/

/-- The call has not finished claiming. -/
def Phase.early : Phase → Bool
  | .idle | .subscribing .. | .merging .. => true
  | _ => false

/-- What is left of the release loop for request `r`. -/
def EvictorPc.todoOf (pc : EvictorPc) (r : ℕ) : Option (List Want) :=
  match pc with
  | .dropping r' todo => if r' = r then some todo else none
  | _ => none

/-- The chunks of a request are distinct, and a call has claimed some of them
    and has the others to claim. -/
structure Request.Wf (q : Request) : Prop where
  nodup : (q.wants.map Want.chunk).Nodup
  subscribing : ∀ todo claimed, q.phase = .subscribing todo claimed →
    (todo ++ claimed).Perm q.wants
  merging : ∀ w todo claimed, q.phase = .merging w todo claimed →
    (w :: (todo ++ claimed)).Perm q.wants
  rollingBack : ∀ todo, q.phase = .rollingBack todo → (todo.map Want.chunk).Nodup

namespace Cache

variable {cb : ℕ}

/-- The references that request `r` took and has not given back. -/
def outstanding (s : Cache) (r : ℕ) : List Want :=
  match (s.req r).phase with
  | .idle | .aborted => []
  | .subscribing _ claimed => claimed
  | .merging w _ claimed => w :: claimed
  | .rollingBack todo => todo
  | .committed =>
    if (s.req r).released then [] else (s.evictor.todoOf r).getD (s.req r).wants

/-- Request `r` holds a reference on chunk `c`. -/
def Holds (s : Cache) (r c : ℕ) : Prop := c ∈ (s.outstanding r).map Want.chunk

variable {s s' : Cache} {r : ℕ}

theorem outstanding_congr (hp : (s'.req r).phase = (s.req r).phase)
    (hw : (s'.req r).wants = (s.req r).wants) (hr : (s'.req r).released = (s.req r).released)
    (he : s'.evictor.todoOf r = s.evictor.todoOf r) : s'.outstanding r = s.outstanding r := by
  simp only [outstanding, hp, hw, hr, he]

/-! ## The invariant -/

structure Inv (s : Cache) : Prop where
  wf : ∀ r, (s.req r).Wf
  released : ∀ r, (s.req r).released = true →
    (s.req r).phase = .committed ∧ (s.req r).consumer = .disposed
  queued : ∀ r ∈ s.queue, (s.req r).phase = .committed
  batched : ∀ r ∈ s.batch, (s.req r).phase = .committed
  tracked : ∀ r, (s.req r).phase = .committed → (s.req r).released = false →
    r ∈ s.queue ∨ r ∈ s.batch
  dropping : ∀ r todo, s.evictor = .dropping r todo → r ∈ s.batch ∧
    (s.req r).released = false ∧ (s.req r).consumer = .disposed ∧
    todo.Sublist (s.req r).wants
  checking : ∀ r todo, s.evictor = .checking r todo → r ∈ s.batch ∧
    (s.req r).released = true

theorem inv_start : Inv start where
  wf r := ⟨List.nodup_nil, by rintro _ _ ⟨⟩, by rintro _ _ _ ⟨⟩, by rintro _ ⟨⟩⟩
  released := by rintro r ⟨⟩
  queued := by rintro r ⟨⟩
  batched := by rintro r ⟨⟩
  tracked := by rintro r ⟨⟩
  dropping := by rintro r todo ⟨⟩
  checking := by rintro r todo ⟨⟩

/-! ## Steps that leave the references alone -/

/-- The step changes neither the references nor what the evictor tracks: of the
    requests only the producer stage, and no subscriber count. -/
structure SameTracking (s s' : Cache) : Prop where
  req : ∀ r, ∃ p, s'.req r = { s.req r with producer := p }
  queue : s'.queue = s.queue
  batch : s'.batch = s.batch
  evictor : s'.evictor = s.evictor
  subs : ∀ c, (s'.chunk c).subscribers = (s.chunk c).subscribers

theorem SameTracking.refl (s : Cache) : SameTracking s s :=
  ⟨fun _ => ⟨_, rfl⟩, rfl, rfl, rfl, fun _ => rfl⟩

theorem SameTracking.trans {s s' s'' : Cache} (h : SameTracking s s') (h' : SameTracking s' s'') :
    SameTracking s s'' := by
  refine ⟨fun r => ?_, h'.queue.trans h.queue, h'.batch.trans h.batch, h'.evictor.trans h.evictor,
    fun c => (h'.subs c).trans (h.subs c)⟩
  obtain ⟨p, hp⟩ := h.req r
  obtain ⟨p', hp'⟩ := h'.req r
  exact ⟨p', by rw [hp', hp]⟩

theorem SameTracking.inv (h : SameTracking s s') (hI : Inv s) : Inv s' := by
  have hreq : ∀ r, (s'.req r).wants = (s.req r).wants ∧ (s'.req r).phase = (s.req r).phase ∧
      (s'.req r).released = (s.req r).released ∧ (s'.req r).consumer = (s.req r).consumer := by
    intro r
    obtain ⟨p, hp⟩ := h.req r
    rw [hp]
    exact ⟨rfl, rfl, rfl, rfl⟩
  constructor
  · intro r
    obtain ⟨p, hp⟩ := h.req r
    rw [hp]
    exact ⟨(hI.wf r).nodup, (hI.wf r).subscribing, (hI.wf r).merging, (hI.wf r).rollingBack⟩
  · intro r
    rw [(hreq r).2.1, (hreq r).2.2.1, (hreq r).2.2.2]
    exact hI.released r
  · intro r
    rw [h.queue, (hreq r).2.1]
    exact hI.queued r
  · intro r
    rw [h.batch, (hreq r).2.1]
    exact hI.batched r
  · intro r
    rw [h.queue, h.batch, (hreq r).2.1, (hreq r).2.2.1]
    exact hI.tracked r
  · intro r todo
    rw [h.evictor, h.batch, (hreq r).2.2.1, (hreq r).2.2.2, (hreq r).1]
    exact hI.dropping r todo
  · intro r todo
    rw [h.evictor, h.batch, (hreq r).2.2.1]
    exact hI.checking r todo

theorem SameTracking.outstanding (h : SameTracking s s') (r : ℕ) :
    s'.outstanding r = s.outstanding r := by
  obtain ⟨p, hp⟩ := h.req r
  exact outstanding_congr (by rw [hp]) (by rw [hp]) (by rw [hp]) (by rw [h.evictor])

/-- Only `add_subscriber` and `drop_subscriber` change the stored count. -/
theorem op_subscribers (s : Cache) (c : ℕ) {o : Op} (ha : o ≠ .addSubscriber)
    (hd : o ≠ .dropSubscriber) : (s.op c o).subscribers = (s.chunk c).subscribers := by
  unfold op
  cases o <;> simp only [View.attempt, View.transition, View.pinOnce] <;>
    first
      | exact absurd rfl ha
      | exact absurd rfl hd
      | rfl
      | (split_ifs <;> rfl)

section Setters

variable (s : Cache)

theorem sameTracking_setChunk {c : ℕ} {o : Op} (ha : o ≠ .addSubscriber)
    (hd : o ≠ .dropSubscriber) : SameTracking s (s.setChunk c (s.op c o)) := by
  refine ⟨fun _ => ⟨_, rfl⟩, rfl, rfl, rfl, fun c' => ?_⟩
  by_cases h : c' = c
  · subst h
    simp only [setChunk, Function.update_self]
    exact op_subscribers s c' ha hd
  · simp only [setChunk, Function.update_of_ne h]

theorem sameTracking_setPrepare (p : ℕ) (x : Option (ℕ × PreparePc)) :
    SameTracking s (s.setPrepare p x) := ⟨fun _ => ⟨_, rfl⟩, rfl, rfl, rfl, fun _ => rfl⟩

theorem sameTracking_setPrefetch (f : ℕ) (x : Option (ℕ × PrefetchPc)) :
    SameTracking s (s.setPrefetch f x) := ⟨fun _ => ⟨_, rfl⟩, rfl, rfl, rfl, fun _ => rfl⟩

theorem sameTracking_setLoader (c : ℕ) (x : Option Loader) : SameTracking s (s.setLoader c x) :=
  ⟨fun _ => ⟨_, rfl⟩, rfl, rfl, rfl, fun _ => rfl⟩

theorem sameTracking_setLoadedFor (c : ℕ) (x : Option ℕ) : SameTracking s (s.setLoadedFor c x) :=
  ⟨fun _ => ⟨_, rfl⟩, rfl, rfl, rfl, fun _ => rfl⟩

theorem sameTracking_setProducer (r : ℕ) (p : ProducerStage) :
    SameTracking s (s.setProducer r p) := by
  refine ⟨fun r' => ?_, rfl, rfl, rfl, fun _ => rfl⟩
  by_cases h : r' = r
  · subst h
    exact ⟨p, by simp [setProducer, setReq]⟩
  · exact ⟨(s.req r').producer, by simp only [setProducer, setReq, Function.update_of_ne h]⟩

theorem sameTracking_finishLoad (c : ℕ) (ok : Bool) : SameTracking s (s.finishLoad c ok) := by
  unfold finishLoad
  refine SameTracking.trans ?_ (sameTracking_setLoader _ _ _)
  cases ok
  · exact sameTracking_setChunk s (by simp) (by simp)
  · exact sameTracking_setChunk s (by simp) (by simp)

end Setters

theorem stepPrepare_tracking {p : ℕ} {a : PrepareAct}
    (h : s.stepPrepare p a = some s') : SameTracking s s' := by
  cases a <;> simp only [stepPrepare] at h <;> repeat' split at h
  all_goals cases h
  all_goals
    first
      | exact sameTracking_setPrepare ..
      | exact (sameTracking_setProducer ..).trans (sameTracking_setPrepare ..)
      | exact (sameTracking_setChunk _ (by simp) (by simp)).trans (sameTracking_setPrepare ..)

theorem stepPrefetch_tracking {f : ℕ} {a : PrefetchAct}
    (h : s.stepPrefetch f a = some s') : SameTracking s s' := by
  cases a <;> simp only [stepPrefetch] at h <;> repeat' split at h
  all_goals cases h
  all_goals
    first
      | exact sameTracking_setPrefetch ..
      | exact (sameTracking_setProducer ..).trans (sameTracking_setPrefetch ..)
      | exact ((sameTracking_setChunk _ (by simp) (by simp)).trans
          (sameTracking_setLoader ..)).trans (sameTracking_setPrefetch ..)
      | exact (sameTracking_finishLoad ..).trans (sameTracking_setLoadedFor ..)
      | exact sameTracking_finishLoad ..

theorem stepDemand_tracking {a : DemandAct} (h : s.stepDemand cb a = some s') :
    SameTracking s s' := by
  cases a <;> simp only [stepDemand] at h <;> (try split_ifs at h) <;> cases h
  · exact sameTracking_setChunk s (by simp) (by simp)
  · exact sameTracking_setChunk s (by simp) (by simp)
  · exact (sameTracking_setChunk s (by simp) (by simp)).trans (sameTracking_setLoader ..)
  · exact sameTracking_finishLoad ..

/-! ## The other steps -/

variable {q : Request}

/-- Request `r` changes, and the others stay where they are tracked. -/
theorem Inv.setReq (hI : Inv s) (hreq : s'.req = Function.update s.req r q) (hwf : q.Wf)
    (hrel : q.released = true → q.phase = .committed ∧ q.consumer = .disposed)
    (hqueue : ∀ r', r' ≠ r → (r' ∈ s'.queue ↔ r' ∈ s.queue)) (hb : s'.batch = s.batch)
    (hcom : r ∈ s'.queue ∨ r ∈ s.batch → q.phase = .committed)
    (htrack : q.phase = .committed → q.released = false → r ∈ s'.queue ∨ r ∈ s.batch)
    (hdrop : ∀ r' todo, s'.evictor = .dropping r' todo → if r' = r then r ∈ s.batch ∧
      q.released = false ∧ q.consumer = .disposed ∧ todo.Sublist q.wants
      else s.evictor = .dropping r' todo)
    (hcheck : ∀ r' todo, s'.evictor = .checking r' todo →
      if r' = r then r ∈ s.batch ∧ q.released = true else s.evictor = .checking r' todo) :
    Inv s' := by
  have hother : ∀ r', r' ≠ r → s'.req r' = s.req r' := fun r' h => by
    rw [hreq, Function.update_of_ne h]
  have hself : s'.req r = q := by rw [hreq, Function.update_self]
  constructor <;> intro r' <;> by_cases h : r' = r
  any_goals subst h; rw [hself]
  any_goals rw [hother r' h]
  · exact hwf
  · exact hI.wf r'
  · exact hrel
  · exact hI.released r'
  · exact fun hm => hcom (Or.inl hm)
  · exact fun hm => hI.queued r' ((hqueue r' h).mp hm)
  · exact fun hm => hcom (Or.inr (hb ▸ hm))
  · exact fun hm => hI.batched r' (hb ▸ hm)
  · rw [hb]
    exact htrack
  · rw [hb]
    exact fun hc hf => (hI.tracked r' hc hf).imp_left (hqueue r' h).mpr
  · intro todo he
    rw [hb]
    exact (if_pos rfl).mp (hdrop r' todo he)
  · intro todo he
    rw [hb]
    exact hI.dropping r' todo ((if_neg h).mp (hdrop r' todo he))
  · intro todo he
    rw [hb]
    exact (if_pos rfl).mp (hcheck r' todo he)
  · intro todo he
    rw [hb]
    exact hI.checking r' todo ((if_neg h).mp (hcheck r' todo he))

/-- A call that has not queued its request yet moves on. -/
theorem Inv.initiate (hI : Inv s)
    (hnew : (s.req r).phase ≠ .committed) (hreq : s'.req = Function.update s.req r q)
    (hb : s'.batch = s.batch) (he : s'.evictor = s.evictor) (hwf : q.Wf)
    (hq : s'.queue = s.queue ∧ q.phase ≠ .committed ∨
      s'.queue = s.queue ++ [r] ∧ q.phase = .committed)
    (hrel : q.released = (s.req r).released) : Inv s' := by
  have hfree : q.released ≠ true := fun h => hnew (hI.released r (hrel ▸ h)).1
  have hbatch : r ∉ s.batch := fun h => hnew (hI.batched r h)
  refine hI.setReq hreq hwf (fun h => absurd h hfree) (fun r' h => ?_) hb (fun h => ?_)
    (fun hc _ => ?_) (fun r' todo h => ?_) (fun r' todo h => ?_)
  · rcases hq with ⟨hq, -⟩ | ⟨hq, -⟩ <;> simp [hq, h]
  · rcases hq with ⟨hq, -⟩ | ⟨-, hc⟩
    · rw [hq] at h
      exact absurd (h.elim (hI.queued r) (hI.batched r)) hnew
    · exact hc
  · rcases hq with ⟨-, hne⟩ | ⟨hq, -⟩
    · exact absurd hc hne
    · simp [hq]
  · rw [he] at h
    rwa [if_neg]
    rintro rfl
    exact hbatch (hI.dropping _ _ h).1
  · rw [he] at h
    rwa [if_neg]
    rintro rfl
    exact hbatch (hI.checking _ _ h).1

theorem inv_initiate {a : InitiateAct} (hI : Inv s)
    (h : s.stepInitiate cb r a = some s') : Inv s' := by
  have hwf := hI.wf r
  cases a with
  | start wants =>
    simp only [stepInitiate] at h
    split_ifs at h with hg
    cases h
    refine hI.initiate (by rw [hg.1]; simp) rfl rfl rfl ⟨hg.2.1, ?_, by rintro _ _ _ ⟨⟩,
      by rintro _ ⟨⟩⟩ (Or.inl ⟨rfl, by simp⟩) rfl
    rintro todo claimed ⟨⟩
    simp
  | claim w =>
    simp only [stepInitiate] at h
    split at h
    · rename_i todo claimed hph
      split_ifs at h with hmem
      cases h
      refine hI.initiate (by rw [hph]; simp) rfl rfl rfl ⟨hwf.nodup, by rintro _ _ ⟨⟩, ?_,
        by rintro _ ⟨⟩⟩ (Or.inl ⟨rfl, by simp⟩) rfl
      rintro w' todo' claimed' ⟨⟩
      exact ((List.perm_cons_erase hmem).symm.append_right claimed).trans
        (hwf.subscribing todo claimed hph)
    · cases h
  | mergeFill =>
    simp only [stepInitiate] at h
    split at h
    · rename_i w todo claimed hph
      cases h
      refine hI.initiate (by rw [hph]; simp) rfl rfl rfl ⟨hwf.nodup, ?_, by rintro _ _ _ ⟨⟩,
        by rintro _ ⟨⟩⟩ (Or.inl ⟨rfl, by simp⟩) rfl
      rintro todo' claimed' ⟨⟩
      exact List.perm_middle.trans (hwf.merging w todo claimed hph)
    · cases h
  | throw =>
    simp only [stepInitiate] at h
    split at h
    · rename_i todo claimed hph
      cases h
      refine hI.initiate (by rw [hph]; simp) rfl rfl rfl ⟨hwf.nodup, by rintro _ _ ⟨⟩,
        by rintro _ _ _ ⟨⟩, ?_⟩ (Or.inl ⟨rfl, by simp⟩) rfl
      rintro todo' ⟨⟩
      have := ((hwf.subscribing todo claimed hph).map Want.chunk).nodup_iff.mpr hwf.nodup
      rw [List.map_append] at this
      exact this.of_append_right
    · cases h
  | rollBack =>
    simp only [stepInitiate] at h
    split at h
    · rename_i w todo hph
      cases h
      refine hI.initiate (by rw [hph]; simp) rfl rfl rfl ⟨hwf.nodup, by rintro _ _ ⟨⟩,
        by rintro _ _ _ ⟨⟩, ?_⟩ (Or.inl ⟨rfl, by simp⟩) rfl
      rintro todo' ⟨⟩
      exact (List.nodup_cons.mp (hwf.rollingBack _ hph)).2
    · rename_i hph
      cases h
      exact hI.initiate (by rw [hph]; simp) rfl rfl rfl ⟨hwf.nodup, by rintro _ _ ⟨⟩,
        by rintro _ _ _ ⟨⟩, by rintro _ ⟨⟩⟩ (Or.inl ⟨rfl, by simp⟩) rfl
    · cases h
  | enqueue =>
    simp only [stepInitiate] at h
    split at h
    · rename_i claimed hph
      cases h
      exact hI.initiate (by rw [hph]; simp) rfl rfl rfl ⟨hwf.nodup, by rintro _ _ ⟨⟩,
        by rintro _ _ _ ⟨⟩, by rintro _ ⟨⟩⟩ (Or.inr ⟨rfl, rfl⟩) rfl
    · cases h

theorem mark_disposed (dst : ConsumerStage) : ConsumerStage.disposed.mark dst = .disposed := by
  cases dst <;> rfl

theorem inv_consume {dst : ConsumerStage} (hI : Inv s)
    (h : s.step cb (.consume r dst) = some s') : Inv s' := by
  simp only [step] at h
  split_ifs at h with hg
  cases h
  have hwf := hI.wf r
  refine hI.setReq rfl ⟨hwf.nodup, hwf.subscribing, hwf.merging, hwf.rollingBack⟩
    (fun h => ⟨hg, ?_⟩) (fun _ _ => Iff.rfl) rfl (fun _ => hg) (hI.tracked r)
    (fun r' todo h => ?_) (fun r' todo h => ?_)
  · show (s.req r).consumer.mark dst = .disposed
    rw [(hI.released r h).2]
    exact mark_disposed dst
  · split_ifs with hr
    · subst hr
      obtain ⟨hb, hf, hc, hs⟩ := hI.dropping r' todo h
      refine ⟨hb, hf, ?_, hs⟩
      rw [hc]
      exact mark_disposed dst
    · exact h
  · split_ifs with hr
    · exact hr ▸ hI.checking r' todo h
    · exact h

/-- The evictor moves on without touching a request. -/
theorem Inv.setEvictor (hI : Inv s) (hreq : s'.req = s.req)
    (hq : s'.queue = s.queue) (hb : s'.batch = s.batch)
    (hd : ∀ r todo, s'.evictor = .dropping r todo → r ∈ s.batch ∧ (s.req r).released = false ∧
      (s.req r).consumer = .disposed ∧ todo.Sublist (s.req r).wants)
    (hc : ∀ r todo, s'.evictor = .checking r todo → r ∈ s.batch ∧ (s.req r).released = true) :
    Inv s' := by
  refine ⟨?_, ?_, ?_, ?_, ?_, ?_, ?_⟩
  · rw [hreq]; exact hI.wf
  · rw [hreq]; exact hI.released
  · rw [hreq, hq]; exact hI.queued
  · rw [hreq, hb]; exact hI.batched
  · rw [hreq, hq, hb]; exact hI.tracked
  · rw [hreq, hb]; exact hd
  · rw [hreq, hb]; exact hc

/-- The evictor changes the flag or the counts of a request it tracks. -/
theorem Inv.setTracked (hI : Inv s) (hr : r ∈ s.batch)
    (hreq : s'.req = Function.update s.req r q)
    (hq : s'.queue = s.queue) (hb : s'.batch = s.batch) (hp : q.phase = (s.req r).phase)
    (hw : q.wants = (s.req r).wants) (hc : q.consumer = .disposed)
    (hd : ∀ r' todo, s'.evictor = .dropping r' todo → r' = r ∧ q.released = false ∧
      todo.Sublist (s.req r).wants)
    (hch : ∀ r' todo, s'.evictor ≠ .checking r' todo) : Inv s' := by
  have hwf := hI.wf r
  have hcom : q.phase = .committed := hp.trans (hI.batched r hr)
  refine hI.setReq hreq ⟨hw ▸ hwf.nodup, hw ▸ hp ▸ hwf.subscribing, hw ▸ hp ▸ hwf.merging,
    hp ▸ hwf.rollingBack⟩ (fun _ => ⟨hcom, hc⟩) (fun _ _ => by rw [hq]) hb (fun _ => hcom)
    (fun _ _ => Or.inr hr) (fun r' todo h => ?_) (fun r' todo h => absurd h (hch r' todo))
  obtain ⟨rfl, hf, hs⟩ := hd r' todo h
  rw [if_pos rfl, hw]
  exact ⟨hr, hf, hc, hs⟩

theorem inv_evictor {a : EvictorAct} (hI : Inv s)
    (h : s.stepEvictor a = some s') : Inv s' := by
  cases a with
  | absorb r =>
    simp only [stepEvictor] at h
    split_ifs at h with hg
    cases h
    refine ⟨hI.wf, hI.released, fun r' h' => hI.queued r' (List.mem_of_mem_erase h'), ?_, ?_, ?_, ?_⟩
    · intro r' h'
      rcases List.mem_append.mp h' with h' | h'
      · exact hI.batched r' h'
      · rw [List.mem_singleton.mp h']
        exact hI.queued r hg.2
    · intro r' hc hf
      by_cases h : r' = r
      · right; rw [h]; simp
      · refine (hI.tracked r' hc hf).imp (fun h' => ?_) (fun h' => List.mem_append_left _ h')
        exact (List.mem_erase_of_ne h).mpr h'
    · intro r' todo h'
      rw [show s.evictor = .dropping r' todo from h'] at hg
      cases hg.1
    · intro r' todo h'
      rw [show s.evictor = .checking r' todo from h'] at hg
      cases hg.1
  | startRelease | endRelease | nextPass =>
    simp only [stepEvictor] at h
    split_ifs at h
    cases h
    exact hI.setEvictor rfl rfl rfl (by rintro _ _ ⟨⟩) (by rintro _ _ ⟨⟩)
  | startDrop r =>
    simp only [stepEvictor] at h
    split_ifs at h with hg
    cases h
    refine hI.setEvictor rfl rfl rfl ?_ (by rintro _ _ ⟨⟩)
    rintro r' todo ⟨⟩
    exact ⟨hg.2.1, hg.2.2.1, hg.2.2.2, List.Sublist.refl _⟩
  | drop =>
    simp only [stepEvictor] at h
    split at h
    · rename_i r w todo he
      cases h
      obtain ⟨hb, hf, hc, hs⟩ := hI.dropping r _ he
      refine hI.setTracked hb rfl rfl rfl rfl rfl hc ?_ (by rintro _ _ ⟨⟩)
      rintro r' todo' ⟨⟩
      exact ⟨rfl, hf, (List.sublist_cons_self _ _).trans hs⟩
    · rename_i r he
      cases h
      obtain ⟨hb, hf, hc, hs⟩ := hI.dropping r _ he
      exact hI.setTracked hb rfl rfl rfl rfl rfl hc (by rintro _ _ ⟨⟩) (by rintro _ _ ⟨⟩)
    · cases h
  | startCheck r =>
    simp only [stepEvictor] at h
    split_ifs at h with hg
    cases h
    refine hI.setEvictor rfl rfl rfl (by rintro _ _ ⟨⟩) ?_
    rintro r' todo ⟨⟩
    exact hg.2
  | check =>
    simp only [stepEvictor] at h
    split at h
    · rename_i r w todo he
      have hch := hI.checking r _ he
      split_ifs at h <;> cases h
      · refine hI.setEvictor rfl rfl rfl (by rintro _ _ ⟨⟩) ?_
        rintro r' todo' ⟨⟩
        exact hch
      · exact hI.setEvictor rfl rfl rfl (by rintro _ _ ⟨⟩) (by rintro _ _ ⟨⟩)
    · rename_i r he
      cases h
      have hch := hI.checking r _ he
      refine ⟨hI.wf, hI.released, hI.queued, fun r' h' => hI.batched r' (List.mem_of_mem_erase h'),
        ?_, by rintro _ _ ⟨⟩, by rintro _ _ ⟨⟩⟩
      intro r' hc hf
      have hne : r' ≠ r := by
        rintro rfl
        rw [show (s.req r').released = false from hf] at hch
        cases hch.2
      exact (hI.tracked r' hc hf).imp id fun h' => (List.mem_erase_of_ne hne).mpr h'
    · cases h
  | endRetire sweep =>
    simp only [stepEvictor] at h
    split_ifs at h <;> cases h <;>
      exact hI.setEvictor rfl rfl rfl (by rintro _ _ ⟨⟩) (by rintro _ _ ⟨⟩)
  | evict r c =>
    simp only [stepEvictor] at h
    split at h
    · split_ifs at h <;> cases h
      · exact hI.setEvictor rfl rfl rfl (by rintro _ _ ⟨⟩) (by rintro _ _ ⟨⟩)
      · exact hI
    · cases h
  | detach | endSweep =>
    simp only [stepEvictor] at h
    split at h
    · cases h
      exact hI.setEvictor rfl rfl rfl (by rintro _ _ ⟨⟩) (by rintro _ _ ⟨⟩)
    · cases h

variable {a : Action}

theorem inv_step (hI : Inv s) (h : s.step cb a = some s') : Inv s' := by
  cases a with
  | initiate r a => exact inv_initiate hI h
  | consume r dst => exact inv_consume hI h
  | evictor a => exact inv_evictor hI h
  | prepare p a => exact (stepPrepare_tracking h).inv hI
  | prefetch f a => exact (stepPrefetch_tracking h).inv hI
  | demand a => exact (stepDemand_tracking h).inv hI

/-- In every run, the evictor tracks the requests that are committed and not released. -/
theorem requests_tracked {as : List Action} (h : run (step cb) start as = some s) :
    Inv s :=
  run_invariant (fun _ _ _ hi hs => inv_step hi hs) inv_start h

/-- One range inside chunk `0`. -/
def firstChunk : Want := ⟨0, [(0, 1)]⟩

/-- The actions of one `initiate_prefetching_request`. -/
def subscribe (r : ℕ) : List Action :=
  [.initiate r (.start [firstChunk]), .initiate r (.claim firstChunk), .initiate r .mergeFill,
    .initiate r .enqueue]

/-- The consumer of `r` disposes of it, and the evictor releases its reference. -/
def dispose (r : ℕ) : List Action :=
  [.consume r .disposed, .evictor (.absorb r), .evictor .startRelease, .evictor (.startDrop r),
    .evictor .drop, .evictor .drop, .evictor .endRelease]

/-- The evictor is about to drop the reference of a request, and later to check
    whether it can retire it. -/
theorem requests_tracked_disposed :
    (∃ s, run (step 4096) start (subscribe 0 ++ (dispose 0).take 4) = some s ∧
      s.evictor = .dropping 0 [firstChunk] ∧ Inv s) ∧
    ∃ s, run (step 4096) start (subscribe 0 ++ dispose 0 ++ [Action.evictor (.startCheck 0)]) = some s ∧
      s.evictor = .checking 0 [firstChunk] ∧ (s.req 0).released = true ∧ Inv s := by
  obtain ⟨s, hrun, he⟩ : ∃ s, run (step 4096) start (subscribe 0 ++ (dispose 0).take 4) = some s ∧
    s.evictor = .dropping 0 [firstChunk] := ⟨_, rfl, rfl⟩
  obtain ⟨t, hrun', he', hrel⟩ : ∃ t, run (step 4096) start (subscribe 0 ++ dispose 0 ++
    [Action.evictor (.startCheck 0)]) = some t ∧ t.evictor = .checking 0 [firstChunk] ∧
      (t.req 0).released = true := ⟨_, rfl, rfl, rfl⟩
  exact ⟨⟨s, hrun, he, requests_tracked hrun⟩, t, hrun', he', hrel, requests_tracked hrun'⟩

/-! ## What a step leaves alone -/

/-- Only the call of request `r` moves its phase. -/
theorem phase_step (h : s.step cb a = some s') (r : ℕ) :
    (s'.req r).phase = (s.req r).phase ∧ (s'.req r).wants = (s.req r).wants ∨
      ∃ b, a = .initiate r b := by
  have hsame : ∀ {s s' : Cache}, SameTracking s s' →
      (s'.req r).phase = (s.req r).phase ∧ (s'.req r).wants = (s.req r).wants := by
    intro s s' hs
    obtain ⟨p, hp⟩ := hs.req r
    rw [hp]
    exact ⟨rfl, rfl⟩
  cases a with
  | initiate r' b =>
    by_cases hr : r' = r
    · exact Or.inr ⟨b, by rw [hr]⟩
    · left
      have hne : r ≠ r' := Ne.symm hr
      simp only [step] at h
      cases b <;> simp only [stepInitiate] at h <;> repeat' split at h
      all_goals cases h
      all_goals simp [setReq, setChunk, hne]
  | consume r' dst =>
    left
    simp only [step] at h
    split_ifs at h
    cases h
    by_cases hr : r = r'
    · subst hr; simp [setReq]
    · simp [setReq, hr]
  | evictor b =>
    left
    simp only [step] at h
    cases b <;> simp only [stepEvictor] at h <;> repeat' split at h
    all_goals cases h
    all_goals first | exact ⟨rfl, rfl⟩ | skip
    · rename_i r' w todo he
      by_cases hr : r = r'
      · subst hr; simp [setReq, setChunk]
      · simp [setReq, setChunk, hr]
    · rename_i r' he
      by_cases hr : r = r'
      · subst hr; simp [setReq]
      · simp [setReq, hr]
  | prepare p b => exact Or.inl (hsame (stepPrepare_tracking h))
  | prefetch f b => exact Or.inl (hsame (stepPrefetch_tracking h))
  | demand b => exact Or.inl (hsame (stepDemand_tracking h))

theorem committed_stable (h : s.step cb a = some s')
    (hc : (s.req r).phase = .committed) :
    (s'.req r).phase = .committed ∧ (s'.req r).wants = (s.req r).wants := by
  rcases phase_step h r with ⟨hp, hw⟩ | ⟨b, rfl⟩
  · exact ⟨hp.trans hc, hw⟩
  · simp only [step] at h
    cases b <;> simp only [stepInitiate, hc] at h
    all_goals simp at h

theorem names_stable (h : s.step cb a = some s') {r c : ℕ}
    (hc : (s.req r).phase = .committed) (hn : (s.req r).Names c) : (s'.req r).Names c := by
  unfold Request.Names
  rw [(committed_stable h hc).2]
  exact hn

/-- What a step leaves alone: the evictor and the calls, but for the one that steps. -/
theorem calls_step (h : s.step cb a = some s') :
    (s'.evictor = s.evictor ∨ ∃ b, a = .evictor b) ∧
      (∀ p, s'.prepare p = s.prepare p ∨ ∃ b, a = .prepare p b) ∧
      ∀ f, s'.prefetch f = s.prefetch f ∨ ∃ b, a = .prefetch f b := by
  cases a with
  | initiate r b =>
    simp only [step] at h
    cases b <;> simp only [stepInitiate] at h <;> repeat' split at h
    all_goals cases h
    all_goals exact ⟨.inl rfl, fun _ => .inl rfl, fun _ => .inl rfl⟩
  | consume r dst =>
    simp only [step] at h
    split_ifs at h
    cases h
    exact ⟨.inl rfl, fun _ => .inl rfl, fun _ => .inl rfl⟩
  | evictor b =>
    simp only [step] at h
    refine ⟨.inr ⟨b, rfl⟩, ?_⟩
    cases b <;> simp only [stepEvictor] at h <;> repeat' split at h
    all_goals cases h
    all_goals exact ⟨fun _ => .inl rfl, fun _ => .inl rfl⟩
  | prepare p' b =>
    refine ⟨.inl (stepPrepare_tracking h).evictor, fun p => ?_, fun f => .inl ?_⟩
    · by_cases hp : p' = p
      · exact Or.inr ⟨b, by rw [hp]⟩
      · left
        have hne : p ≠ p' := Ne.symm hp
        simp only [step] at h
        cases b <;> simp only [stepPrepare] at h <;> repeat' split at h
        all_goals cases h
        all_goals simp [setPrepare, setProducer, setReq, setChunk, hne]
    · simp only [step] at h
      cases b <;> simp only [stepPrepare] at h <;> repeat' split at h
      all_goals cases h
      all_goals rfl
  | prefetch f' b =>
    refine ⟨.inl (stepPrefetch_tracking h).evictor, fun p => .inl ?_, fun f => ?_⟩
    · simp only [step] at h
      cases b <;> simp only [stepPrefetch] at h <;> repeat' split at h
      all_goals cases h
      all_goals rfl
    · by_cases hf : f' = f
      · exact Or.inr ⟨b, by rw [hf]⟩
      · left
        have hne : f ≠ f' := Ne.symm hf
        simp only [step] at h
        cases b <;> simp only [stepPrefetch] at h <;> repeat' split at h
        all_goals cases h
        all_goals
          simp [setPrefetch, setProducer, setReq, setChunk, setLoader, setLoadedFor, finishLoad,
            hne]
  | demand b =>
    simp only [step] at h
    cases b <;> simp only [stepDemand] at h <;> (try split_ifs at h) <;> cases h <;>
      exact ⟨.inl rfl, fun _ => .inl rfl, fun _ => .inl rfl⟩

/-! ## What a step does to a chunk -/

/-- Action `a` performs operation `o` on chunk `c`. -/
inductive ChunkOp (cb : ℕ) (s : Cache) : Action → ℕ → Op → Prop where
  | addSubscriber (r : ℕ) (w : Want) :
    ChunkOp cb s (.initiate r (.claim w)) w.chunk .addSubscriber
  | mergeFill {r : ℕ} {w : Want} {todo claimed : List Want}
    (h : (s.req r).phase = .merging w todo claimed) :
    ChunkOp cb s (.initiate r .mergeFill) w.chunk (.mergeFill (w.fill cb))
  | rollBack (r c : ℕ) : ChunkOp cb s (.initiate r .rollBack) c .dropSubscriber
  | drop (c : ℕ) : ChunkOp cb s (.evictor .drop) c .dropSubscriber
  | markEvicting (r c : ℕ) (only : Bool) :
    ChunkOp cb s (.evictor (.evict r c)) c (.markEvicting only)
  | markEmpty {pass1 : Bool} {c : ℕ} (h : s.evictor = .detaching pass1 c) :
    ChunkOp cb s (.evictor .detach) c .markEmpty
  | markQueued (p c : ℕ) : ChunkOp cb s (.prepare p .next) c .markQueued
  | markAllocated {p r c n : ℕ} {todo : List Want}
    (h : s.prepare p = some (r, .attached c todo n)) :
    ChunkOp cb s (.prepare p .next) c .markAllocated
  | takeLoading {f r : ℕ} {w : Want} {todo : List Want}
    (h : s.prefetch f = some (r, .claiming (w :: todo))) :
    ChunkOp cb s (.prefetch f .next) w.chunk .takeLoading
  | complete {f c : ℕ} (ok : Bool) (h : s.loader c = some (.prefetch f)) :
    ChunkOp cb s (.prefetch f (.complete c ok)) c (if ok then .markCached else .markLoadFailed)
  | pin (c lo hi : ℕ) :
    ChunkOp cb s (.demand (.pin c lo hi)) c (.tryPinCovering (c * cb) cb lo hi)
  | unpin {c : ℕ} (h : 0 < (s.chunk c).pins) : ChunkOp cb s (.demand (.unpin c)) c .releaseRead
  | load {c lo hi : ℕ} (h : max lo (c * cb) < min hi (c * cb + cb)) :
    ChunkOp cb s (.demand (.load c lo hi)) c
      (.takeLoadingMerging (neededFill (c * cb) cb lo hi))
  | loaded {c : ℕ} (ok : Bool) (h : s.loader c = some .demand) :
    ChunkOp cb s (.demand (.loaded c ok)) c (if ok then .markCached else .markLoadFailed)

theorem chunk_step (h : s.step cb a = some s') :
    s'.chunk = s.chunk ∨
      ∃ c o, ChunkOp cb s a c o ∧ s'.chunk = Function.update s.chunk c (s.op c o) := by
  cases a with
  | initiate r b =>
    simp only [step] at h
    cases b <;> simp only [stepInitiate] at h <;> repeat' split at h
    all_goals cases h
    all_goals
      first
        | exact Or.inl rfl
        | exact Or.inr ⟨_, _, .addSubscriber .., rfl⟩
        | exact Or.inr ⟨_, _, .mergeFill (by assumption), rfl⟩
        | exact Or.inr ⟨_, _, .rollBack .., rfl⟩
  | consume r dst =>
    simp only [step] at h
    split_ifs at h
    cases h
    exact Or.inl rfl
  | evictor b =>
    simp only [step] at h
    cases b <;> simp only [stepEvictor] at h <;> repeat' split at h
    all_goals cases h
    all_goals
      first
        | exact Or.inl rfl
        | exact Or.inr ⟨_, _, .drop .., rfl⟩
        | exact Or.inr ⟨_, _, .markEvicting .., rfl⟩
        | exact Or.inr ⟨_, _, .markEmpty (by assumption), rfl⟩
  | prepare p b =>
    simp only [step] at h
    cases b <;> simp only [stepPrepare] at h <;> repeat' split at h
    all_goals cases h
    all_goals
      first
        | exact Or.inl rfl
        | exact Or.inr ⟨_, _, .markQueued .., rfl⟩
        | exact Or.inr ⟨_, _, .markAllocated (by assumption), rfl⟩
  | prefetch f b =>
    simp only [step] at h
    cases b <;> simp only [stepPrefetch] at h <;> repeat' split at h
    all_goals cases h
    all_goals
      first
        | exact Or.inl rfl
        | exact Or.inr ⟨_, _, .takeLoading (by assumption), rfl⟩
        | exact Or.inr ⟨_, _, .complete _ (by assumption), rfl⟩
        | skip
    · rename_i hf
      rw [Bool.not_eq_true] at hf
      subst hf
      exact Or.inr ⟨_, _, .complete false (by assumption), rfl⟩
  | demand b =>
    simp only [step] at h
    cases b <;> simp only [stepDemand] at h <;> (try split_ifs at h with hg) <;> cases h
    · exact Or.inr ⟨_, _, .pin .., rfl⟩
    · exact Or.inr ⟨_, _, .unpin hg, rfl⟩
    · exact Or.inr ⟨_, _, .load hg.1, rfl⟩
    · exact Or.inr ⟨_, _, .loaded _ hg, rfl⟩

/-- A pinned chunk is `in_use`. -/
def PinsInUse (s : Cache) : Prop := ∀ c, 0 < (s.chunk c).pins → (s.chunk c).state = .inUse

theorem op_pinsInUse (s : Cache) {c : ℕ} {o : Op}
    (h : 0 < (s.chunk c).pins → (s.chunk c).state = .inUse)
    (hp : 0 < (s.op c o).pins) : (s.op c o).state = .inUse := by
  unfold op at *
  cases o <;> simp only [View.attempt, View.transition, View.pinOnce] at * <;> split_ifs at *
  all_goals first | exact h hp | rfl | simp_all [Attempt.apply]

theorem pinsInUse_step (hp : PinsInUse s)
    (h : s.step cb a = some s') : PinsInUse s' := by
  intro c
  rcases chunk_step h with hc | ⟨c', o, -, hc⟩
  · rw [hc]
    exact hp c
  · rw [hc]
    by_cases hcc : c = c'
    · subst hcc
      rw [Function.update_self]
      exact op_pinsInUse s (hp c)
    · rw [Function.update_of_ne hcc]
      exact hp c

/-! ## References taken and given back -/

/-- Request `r` takes a reference on the chunk of `w`. -/
structure Takes (s s' : Cache) (r : ℕ) (w : Want) : Prop where
  self : s'.outstanding r = w :: s.outstanding r
  fresh : ¬s.Holds r w.chunk
  others : ∀ r', r' ≠ r → s'.outstanding r' = s.outstanding r' ∧ s'.req r' = s.req r'
  chunk : s'.chunk = Function.update s.chunk w.chunk (s.op w.chunk .addSubscriber)
  taken : (s'.req r).taken =
    Function.update (s.req r).taken w.chunk ((s.req r).taken w.chunk + 1)
  dropped : (s'.req r).dropped = (s.req r).dropped

/-- Request `r` gives back its reference on the chunk of `w`. -/
structure Drops (s s' : Cache) (r : ℕ) (w : Want) : Prop where
  self : s.outstanding r = w :: s'.outstanding r
  last : ¬s'.Holds r w.chunk
  late : (s'.req r).phase.early = false
  others : ∀ r', r' ≠ r → s'.outstanding r' = s.outstanding r' ∧ s'.req r' = s.req r'
  chunk : s'.chunk = Function.update s.chunk w.chunk (s.op w.chunk .dropSubscriber)
  taken : (s'.req r).taken = (s.req r).taken
  dropped : (s'.req r).dropped =
    Function.update (s.req r).dropped w.chunk ((s.req r).dropped w.chunk + 1)

/-- Nobody takes or gives back a reference. -/
structure Keeps (s s' : Cache) : Prop where
  holds : ∀ r c, s'.Holds r c ↔ s.Holds r c
  subs : ∀ c, (s'.chunk c).subscribers = (s.chunk c).subscribers
  taken : ∀ r, (s'.req r).taken = (s.req r).taken
  dropped : ∀ r, (s'.req r).dropped = (s.req r).dropped

theorem SameTracking.keeps (h : SameTracking s s') : Keeps s s' := by
  refine ⟨fun r c => by unfold Holds; rw [h.outstanding r], h.subs, fun r => ?_, fun r => ?_⟩
  all_goals
    obtain ⟨p, hp⟩ := h.req r
    rw [hp]

/-- A call moves on without taking or giving back a reference. -/
theorem keeps_setReq (hreq : s'.req = Function.update s.req r q)
    (he : s'.evictor = s.evictor)
    (hsubs : ∀ c, (s'.chunk c).subscribers = (s.chunk c).subscribers)
    (ht : q.taken = (s.req r).taken) (hd : q.dropped = (s.req r).dropped)
    (hself : ∀ c, s'.Holds r c ↔ s.Holds r c) : Keeps s s' := by
  have hother : ∀ r', r' ≠ r → s'.req r' = s.req r' := fun r' h => by
    rw [hreq, Function.update_of_ne h]
  have hq : s'.req r = q := by rw [hreq, Function.update_self]
  refine ⟨fun r' c => ?_, hsubs, fun r' => ?_, fun r' => ?_⟩
  · by_cases h : r' = r
    · subst h; exact hself c
    · have hout : s'.outstanding r' = s.outstanding r' :=
        outstanding_congr (by rw [hother r' h]) (by rw [hother r' h]) (by rw [hother r' h])
          (by rw [he])
      unfold Holds
      rw [hout]
  · by_cases h : r' = r
    · subst h; rw [hq, ht]
    · rw [hother r' h]
  · by_cases h : r' = r
    · subst h; rw [hq, hd]
    · rw [hother r' h]

/-- The evictor moves on without giving back a reference. -/
theorem keeps_setEvictor (hreq : s'.req = s.req)
    (hsubs : ∀ c, (s'.chunk c).subscribers = (s.chunk c).subscribers)
    (hold : ∀ r, s.evictor.todoOf r = none) (hnew : ∀ r, s'.evictor.todoOf r = none) :
    Keeps s s' := by
  refine ⟨fun r c => ?_, hsubs, fun r => by rw [hreq], fun r => by rw [hreq]⟩
  have hout : s'.outstanding r = s.outstanding r :=
    outstanding_congr (by rw [hreq]) (by rw [hreq]) (by rw [hreq]) (by rw [hold, hnew])
  unfold Holds
  rw [hout]

theorem holds_of_phase {l : List Want} (h : s.outstanding r = l) (c : ℕ) :
    s.Holds r c ↔ c ∈ l.map Want.chunk := by
  unfold Holds
  rw [h]

theorem todoOf_of_not_committed (hI : Inv s)
    (h : (s.req r).phase ≠ .committed) : s.evictor.todoOf r = none := by
  unfold EvictorPc.todoOf
  split
  · rename_i r' todo he
    split_ifs with hr
    · subst hr
      exact absurd (hI.batched r' (hI.dropping r' todo he).1) h
    · rfl
  · rfl

theorem initiate_refs {a : InitiateAct} (hI : Inv s)
    (h : s.stepInitiate cb r a = some s') :
    (∃ w, a = .claim w ∧ Takes s s' r w) ∨ (∃ w, a = .rollBack ∧ Drops s s' r w) ∨
      Keeps s s' := by
  have hwf := hI.wf r
  cases a with
  | start wants =>
    simp only [stepInitiate] at h
    split_ifs at h with hg
    cases h
    refine Or.inr (Or.inr (keeps_setReq rfl rfl (fun _ => rfl) rfl rfl fun c => ?_))
    simp [Holds, outstanding, setReq, hg.1]
  | claim w =>
    simp only [stepInitiate] at h
    split at h
    · rename_i todo claimed hph
      split_ifs at h with hmem
      cases h
      have hout : s.outstanding r = claimed := by simp [outstanding, hph]
      refine Or.inl ⟨w, rfl, ?_, ?_, fun r' hr => ⟨?_, ?_⟩, rfl, ?_, ?_⟩
      · simp [outstanding, setReq, setChunk, hph]
      · rw [holds_of_phase hout]
        have := ((hwf.subscribing todo claimed hph).map Want.chunk).nodup_iff.mpr hwf.nodup
        rw [List.map_append] at this
        exact List.disjoint_of_nodup_append this (List.mem_map_of_mem hmem)
      · exact outstanding_congr (by simp [setReq, setChunk, hr]) (by simp [setReq, setChunk, hr])
          (by simp [setReq, setChunk, hr]) rfl
      · simp [setReq, setChunk, hr]
      · simp [setReq]
      · simp [setReq]
    · cases h
  | mergeFill =>
    simp only [stepInitiate] at h
    split at h
    · rename_i w todo claimed hph
      cases h
      refine Or.inr (Or.inr (keeps_setReq rfl rfl
        (sameTracking_setChunk s (by simp) (by simp)).subs rfl rfl fun c => ?_))
      simp [Holds, outstanding, setReq, hph]
    · cases h
  | throw =>
    simp only [stepInitiate] at h
    split at h
    · rename_i todo claimed hph
      cases h
      refine Or.inr (Or.inr (keeps_setReq rfl rfl (fun _ => rfl) rfl rfl fun c => ?_))
      simp [Holds, outstanding, setReq, hph]
    · cases h
  | rollBack =>
    simp only [stepInitiate] at h
    split at h
    · rename_i w todo hph
      cases h
      refine Or.inr (Or.inl ⟨w, rfl, ?_, ?_, ?_, fun r' hr => ⟨?_, ?_⟩, rfl, ?_, ?_⟩)
      · simp [outstanding, setReq, setChunk, hph]
      · rw [holds_of_phase (l := todo) (by simp [outstanding, setReq, setChunk])]
        exact (List.nodup_cons.mp (hwf.rollingBack _ hph)).1
      · simp [setReq, Phase.early]
      · exact outstanding_congr (by simp [setReq, setChunk, hr]) (by simp [setReq, setChunk, hr])
          (by simp [setReq, setChunk, hr]) rfl
      · simp [setReq, setChunk, hr]
      · simp [setReq]
      · simp [setReq]
    · rename_i hph
      cases h
      refine Or.inr (Or.inr (keeps_setReq rfl rfl (fun _ => rfl) rfl rfl fun c => ?_))
      simp [Holds, outstanding, setReq, hph]
    · cases h
  | enqueue =>
    simp only [stepInitiate] at h
    split at h
    · rename_i claimed hph
      cases h
      have htodo := todoOf_of_not_committed hI (r := r) (by rw [hph]; simp)
      have hfree : (s.req r).released = false := by
        by_contra hb
        have := (hI.released r (by simpa using hb)).1
        rw [hph] at this
        cases this
      have hperm := hwf.subscribing [] claimed hph
      refine Or.inr (Or.inr (keeps_setReq rfl rfl (fun _ => rfl) rfl rfl fun c => ?_))
      simp only [Holds, outstanding, setReq, Function.update_self, hfree, htodo, hph]
      simp only [Bool.false_eq_true, if_false, Option.getD_none]
      exact (hperm.map Want.chunk).mem_iff.symm
    · cases h

theorem outstanding_committed (hp : (s.req r).phase = .committed) :
    s.outstanding r =
      if (s.req r).released then [] else (s.evictor.todoOf r).getD (s.req r).wants := by
  simp only [outstanding, hp]

/-- The release loop of request `r` is at `todo`. -/
theorem outstanding_dropping (hI : Inv s) {todo : List Want}
    (he : s.evictor = .dropping r todo) : s.outstanding r = todo := by
  have hd := hI.dropping r todo he
  rw [outstanding_committed (hI.batched r hd.1), hd.2.1, he]
  simp [EvictorPc.todoOf]

theorem drops_dropping (hI : Inv s) {w : Want} {todo : List Want} (he : s.evictor = .dropping r (w :: todo)) (he' : s'.evictor = .dropping r todo)
    (hreq : s'.req = Function.update s.req r q) (hp : q.phase = (s.req r).phase)
    (hrel : q.released = (s.req r).released)
    (hchunk : s'.chunk = Function.update s.chunk w.chunk (s.op w.chunk .dropSubscriber))
    (ht : q.taken = (s.req r).taken)
    (hd : q.dropped =
      Function.update (s.req r).dropped w.chunk ((s.req r).dropped w.chunk + 1)) :
    Drops s s' r w := by
  obtain ⟨hb, hf, -, hs⟩ := hI.dropping r _ he
  have hother : ∀ r', r' ≠ r → s'.req r' = s.req r' := fun r' h => by
    rw [hreq, Function.update_of_ne h]
  have hq : s'.req r = q := by rw [hreq, Function.update_self]
  have hself : s'.outstanding r = todo := by
    rw [outstanding_committed (by rw [hq, hp]; exact hI.batched r hb), hq, hrel, hf, he']
    simp [EvictorPc.todoOf]
  refine ⟨by rw [hself]; exact outstanding_dropping hI he, ?_, ?_,
    fun r' hr => ⟨?_, hother r' hr⟩, hchunk, by rw [hq, ht], by rw [hq, hd]⟩
  · rw [holds_of_phase hself]
    exact (List.nodup_cons.mp ((hs.map Want.chunk).nodup (hI.wf r).nodup)).1
  · rw [hq, hp, hI.batched r hb]
    rfl
  · refine outstanding_congr (by rw [hother r' hr]) (by rw [hother r' hr]) (by rw [hother r' hr]) ?_
    rw [he, he']
    simp [EvictorPc.todoOf, Ne.symm hr]

theorem evictor_refs {a : EvictorAct} (hI : Inv s)
    (h : s.stepEvictor a = some s') :
    (∃ r w, a = .drop ∧ Drops s s' r w) ∨ Keeps s s' := by
  cases a with
  | absorb r =>
    simp only [stepEvictor] at h
    split_ifs at h with hg
    cases h
    exact Or.inr (keeps_setEvictor rfl (fun _ => rfl) (fun r' => by rw [hg.1]; rfl)
      (fun r' => by simp only [hg.1]; rfl))
  | startRelease | endRelease | nextPass | startCheck r =>
    simp only [stepEvictor] at h
    split_ifs at h with hg
    cases h
    refine Or.inr (keeps_setEvictor rfl (fun _ => rfl) (fun r' => ?_) (fun r' => rfl))
    first | rw [hg]; rfl | rw [hg.1]; rfl
  | startDrop r =>
    simp only [stepEvictor] at h
    split_ifs at h with hg
    cases h
    refine Or.inr ⟨fun r' c => ?_, fun _ => rfl, fun _ => rfl, fun _ => rfl⟩
    have hout : Cache.outstanding { s with evictor := .dropping r (s.req r).wants } r' =
        s.outstanding r' := by
      by_cases hr : r = r'
      · subst hr
        have hc := hI.batched r hg.2.1
        rw [outstanding_committed (s := s) hc, hg.1]
        simp [outstanding, EvictorPc.todoOf, hg.2.2.1, hc]
      · refine outstanding_congr rfl rfl rfl ?_
        rw [hg.1]
        simp [EvictorPc.todoOf, hr]
    unfold Holds
    rw [hout]
  | drop =>
    simp only [stepEvictor] at h
    split at h
    · rename_i r w todo he
      cases h
      obtain ⟨hb, hf, hc, hs⟩ := hI.dropping r _ he
      exact Or.inl ⟨r, w, rfl, drops_dropping hI he rfl rfl rfl rfl rfl rfl rfl⟩
    · rename_i r he
      cases h
      obtain ⟨hb, hf, hc, hs⟩ := hI.dropping r _ he
      refine Or.inr ⟨fun r' c => ?_, fun _ => rfl, fun r' => ?_, fun r' => ?_⟩
      · by_cases hr : r' = r
        · subst hr
          rw [holds_of_phase (outstanding_dropping hI he)]
          simp [Holds, outstanding, setReq, hI.batched r' hb]
        · exact holds_of_phase (outstanding_congr (s := s) (by simp [setReq, hr])
            (by simp [setReq, hr]) (by simp [setReq, hr])
            (by rw [he]; simp [EvictorPc.todoOf, Ne.symm hr])) c
      · by_cases hr : r' = r
        · subst hr; simp [setReq]
        · simp [setReq, hr]
      · by_cases hr : r' = r
        · subst hr; simp [setReq]
        · simp [setReq, hr]
    · cases h
  | check =>
    simp only [stepEvictor] at h
    split at h
    · rename_i r w todo he
      split_ifs at h <;> cases h <;>
        exact Or.inr (keeps_setEvictor rfl (fun _ => rfl) (fun r' => by rw [he]; rfl) fun r' => rfl)
    · rename_i r he
      cases h
      exact Or.inr (keeps_setEvictor rfl (fun _ => rfl) (fun r' => by rw [he]; rfl) fun r' => rfl)
    · cases h
  | endRetire sweep =>
    simp only [stepEvictor] at h
    split_ifs at h with hg <;> cases h <;>
      exact Or.inr (keeps_setEvictor rfl (fun _ => rfl) (fun r' => by rw [hg]; rfl) fun r' => rfl)
  | evict r c =>
    simp only [stepEvictor] at h
    split at h
    · rename_i pass1 he
      split_ifs at h <;> cases h
      · exact Or.inr (keeps_setEvictor rfl (sameTracking_setChunk s (by simp) (by simp)).subs
          (fun r' => by rw [he]; rfl) fun r' => rfl)
      · exact Or.inr (SameTracking.refl s).keeps
    · cases h
  | detach =>
    simp only [stepEvictor] at h
    split at h
    · rename_i pass1 c he
      cases h
      exact Or.inr (keeps_setEvictor rfl (sameTracking_setChunk s (by simp) (by simp)).subs
        (fun r' => by rw [he]; rfl) fun r' => rfl)
    · cases h
  | endSweep =>
    simp only [stepEvictor] at h
    split at h
    · rename_i pass1 he
      cases h
      exact Or.inr (keeps_setEvictor rfl (fun _ => rfl) (fun r' => by rw [he]; rfl) fun r' => rfl)
    · cases h

/-- **What a step does to the references.** -/
theorem outstanding_step (hI : Inv s) (h : s.step cb a = some s') :
    (∃ r w, a = .initiate r (.claim w) ∧ Takes s s' r w) ∨ (∃ r w, Drops s s' r w) ∨
      Keeps s s' := by
  cases a with
  | initiate r a =>
    rcases initiate_refs hI h with ⟨w, rfl, ht⟩ | ⟨w, -, hd⟩ | hk
    · exact Or.inl ⟨r, w, rfl, ht⟩
    · exact Or.inr (Or.inl ⟨r, w, hd⟩)
    · exact Or.inr (Or.inr hk)
  | consume r dst =>
    simp only [step] at h
    split_ifs at h
    cases h
    refine Or.inr (Or.inr (keeps_setReq rfl rfl (fun _ => rfl) rfl rfl fun c => ?_))
    refine holds_of_phase (outstanding_congr (s := s) ?_ ?_ ?_ ?_) c <;> simp [setReq]
  | evictor a =>
    rcases evictor_refs hI h with ⟨r, w, -, hd⟩ | hk
    · exact Or.inr (Or.inl ⟨r, w, hd⟩)
    · exact Or.inr (Or.inr hk)
  | prepare p a => exact Or.inr (Or.inr (stepPrepare_tracking h).keeps)
  | prefetch f a => exact Or.inr (Or.inr (stepPrefetch_tracking h).keeps)
  | demand a => exact Or.inr (Or.inr (stepDemand_tracking h).keeps)

end Cache

end Sirius.IoCache
