import Sirius.IoCache.CacheReclaim

/-!
# Recorded extents of loaded chunks

A request records the extent it wants of a chunk when it subscribes
(`merge_fill`), and `prefetch` later loads the extent it finds in the word it
claims (`take_loading`). In between, the evictor can reclaim the chunk and clear
the extent, or the request may have found the chunk loading or loaded and
recorded nothing. A demand read folds its own extent in when it claims a chunk
(`take_loading_merging`); `prefetch` does not (`prefetch_loads_unset_extent`).

* `loaded_chunk_hit`: the runs in which `prefetch` claims no chunk whose recorded
  extent falls short of what its request wants, and no demand read claims one for
  an unset extent.
-/

namespace Sirius.IoCache

open Sirius.Common Sirius.Common.CasLoop ChunkFill ChunkState

/-- The recorded extent `f` covers the bytes of the extent that `w` wants. -/
def Want.Covered (cb : ℕ) (w : Want) (f : ChunkFill) : Prop :=
  covers f (w.chunk * cb) cb (fillSpan (w.fill cb) (w.chunk * cb) cb).1
    (fillSpan (w.fill cb) (w.chunk * cb) cb).2 = true

instance (cb : ℕ) (w : Want) (f : ChunkFill) : Decidable (w.Covered cb f) :=
  inferInstanceAs (Decidable (_ = true))

theorem Want.Covered.isUnset {cb : ℕ} {w : Want} {f : ChunkFill} (h : w.Covered cb f) :
    f.isUnset = false := by
  by_contra hu
  have h' : covers f _ _ _ _ = true := h
  rw [covers_unset (by simpa using hu)] at h'
  cases h'

/-- For a chunk of whole pages, the extent of a range that touches it is set: a
    demand read then claims none for an unset extent. -/
theorem neededFill_isUnset {c cb lo hi : ℕ} (hcb : ioBlockSize ∣ cb) (hmax : cb ≤ maxChunkBytes)
    (hov : max lo (c * cb) < min hi (c * cb + cb)) :
    (neededFill (c * cb) cb lo hi).isUnset = false := by
  by_contra hu
  have := neededFill_covers hmax (.inl (Nat.mod_eq_zero_of_dvd (dvd_add (hcb.mul_left c) hcb)))
    le_rfl le_rfl hov
  rw [covers_unset (by simpa using hu)] at this
  cases this

namespace Cache

variable {cb : ℕ}

/-! ## Loads -/

/-- The prefetch call has passed `mark_loading` and still owns its claims. -/
def Owns : PrefetchPc → Prop
  | .claiming _ | .failing | .inflight => True
  | _ => False

/-- The moves of a `prefetch` call on `r` that goes on. -/
inductive PrefetchMove (s : Cache) (r : ℕ) : PrefetchPc → PrefetchPc → Prop where
  | late : PrefetchMove s r .consumerLoad .producerLoad
  | early : PrefetchMove s r .consumerLoad .markLoading
  | loading : PrefetchMove s r .producerLoad .markLoading
  | claim : PrefetchMove s r .markLoading (.claiming (s.req r).wants)
  | next (w : Want) (todo : List Want) :
    PrefetchMove s r (.claiming (w :: todo)) (.claiming todo)
  | submit : PrefetchMove s r (.claiming []) .inflight
  | fail (todo : List Want) : PrefetchMove s r (.claiming todo) .failing
  | wait (pc : PrefetchPc) : PrefetchMove s r pc pc

/-- Where the call `f` on request `r` is after a step of it. It ends before it
    owns a chunk or when it owns none any more. -/
theorem prefetch_move {s s' : Cache} {f : ℕ} {b : PrefetchAct}
    (h : s.stepPrefetch f b = some s') :
    (s.prefetch f = none ∧ ∃ r, (s.req r).phase = .committed ∧
      s'.prefetch f = some (r, .consumerLoad)) ∨
    ∃ r pc, s.prefetch f = some (r, pc) ∧
      ((∃ pc', s'.prefetch f = some (r, pc') ∧ PrefetchMove s r pc pc') ∨
        s'.prefetch f = none ∧ (Owns pc → s.NoneClaimed f r)) := by
  cases b <;> simp only [stepPrefetch] at h <;> repeat' split at h
  all_goals cases h
  all_goals
    simp only [setPrefetch, setProducer, setReq, setChunk, setLoader, setLoadedFor, finishLoad,
      Function.update_self]
  all_goals
    first
      | (rename_i hg; exact Or.inl ⟨hg.1, _, hg.2, rfl⟩)
      | exact Or.inr ⟨_, _, by assumption, Or.inl ⟨_, rfl, by constructor⟩⟩
      | exact Or.inr ⟨_, _, by assumption, Or.inl ⟨_, by assumption, .wait _⟩⟩
      | exact Or.inr ⟨_, _, by assumption, Or.inr ⟨trivial, False.elim⟩⟩
      | exact Or.inr ⟨_, _, by assumption, Or.inr ⟨trivial, fun _ => by assumption⟩⟩

/-- What a step does to the loads: it changes no load, or it starts or ends the
    load of one chunk, or it detaches the buffer of one chunk. -/
inductive LoadStep (cb : ℕ) (s s' : Cache) : Action → Prop where
  | none {a : Action} (hl : s'.loader = s.loader) (hf : s'.loadedFor = s.loadedFor)
    (hc : s'.chunk = s.chunk) : LoadStep cb s s' a
  | quiet {a : Action} {c : ℕ} {o : Op} (hl : s'.loader = s.loader)
    (hf : s'.loadedFor = s.loadedFor)
    (hc : s'.chunk = Function.update s.chunk c (s.op c o))
    (ho : o ∈ [.markQueued, .markAllocated, .addSubscriber, .dropSubscriber] ∨
      (∃ want, o = .mergeFill want) ∨ (∃ only, o = .markEvicting only) ∨
      (∃ lo hi, o = .tryPinCovering (c * cb) cb lo hi) ∨
      o = .releaseRead ∧ 0 < (s.chunk c).pins) : LoadStep cb s s' a
  | claim {f r : ℕ} {w : Want} {todo : List Want}
    (hp : s.prefetch f = some (r, .claiming (w :: todo)))
    (hok : s.ret w.chunk .takeLoading = true)
    (hp' : s'.prefetch f = some (r, .claiming todo))
    (hl : s'.loader = Function.update s.loader w.chunk (some (.prefetch f)))
    (hf : s'.loadedFor = s.loadedFor)
    (hc : s'.chunk = Function.update s.chunk w.chunk (s.op w.chunk .takeLoading)) :
    LoadStep cb s s' (.prefetch f .next)
  | load {c lo hi : ℕ}
    (hok : s.ret c (.takeLoadingMerging (neededFill (c * cb) cb lo hi)) = true)
    (hl : s'.loader = Function.update s.loader c (some .demand))
    (hf : s'.loadedFor = s.loadedFor)
    (hc : s'.chunk = Function.update s.chunk c
      (s.op c (.takeLoadingMerging (neededFill (c * cb) cb lo hi)))) :
    LoadStep cb s s' (.demand (.load c lo hi))
  | finish {a : Action} {c : ℕ} {l : Loader} (ok : Bool) (hown : s.loader c = some l)
    (hl : s'.loader = Function.update s.loader c Option.none)
    (hf : s'.loadedFor = s.loadedFor ∨ s'.loadedFor = Function.update s.loadedFor c Option.none ∨
      ∃ f r, l = .prefetch f ∧ s.prefetch f = some (r, .inflight) ∧ ok = true ∧
        s'.loadedFor = Function.update s.loadedFor c (some r))
    (hc : s'.chunk = Function.update s.chunk c
      (s.op c (if ok then .markCached else .markLoadFailed))) : LoadStep cb s s' a
  | detach {pass1 : Bool} {c : ℕ} (he : s.evictor = .detaching pass1 c)
    (hl : s'.loader = s.loader) (hf : s'.loadedFor = Function.update s.loadedFor c Option.none)
    (hc : s'.chunk = Function.update s.chunk c (s.op c .markEmpty)) :
    LoadStep cb s s' (.evictor .detach)

theorem load_step {s s' : Cache} {a : Action} (h : s.step cb a = some s') :
    LoadStep cb s s' a := by
  cases a with
  | initiate r b =>
    simp only [step] at h
    cases b <;> simp only [stepInitiate] at h <;> repeat' split at h
    all_goals cases h
    all_goals first | exact .none rfl rfl rfl | exact .quiet rfl rfl rfl (by simp)
  | consume r dst =>
    simp only [step] at h
    split_ifs at h
    cases h
    exact .none rfl rfl rfl
  | evictor b =>
    simp only [step] at h
    cases b <;> simp only [stepEvictor] at h <;> repeat' split at h
    all_goals cases h
    all_goals
      first
        | exact .none rfl rfl rfl
        | exact .detach (by assumption) rfl rfl rfl
        | exact .quiet rfl rfl rfl (by simp)
  | prepare p b =>
    simp only [step] at h
    cases b <;> simp only [stepPrepare] at h <;> repeat' split at h
    all_goals cases h
    all_goals first | exact .none rfl rfl rfl | exact .quiet rfl rfl rfl (by simp)
  | prefetch f b =>
    simp only [step] at h
    cases b with
    | complete c ok =>
      simp only [stepPrefetch] at h
      split at h
      · rename_i hown
        split at h
        · rename_i r hp
          cases h
          refine .finish ok hown rfl (Or.inr ?_) rfl
          cases ok
          · exact Or.inl rfl
          · exact Or.inr ⟨f, r, rfl, hp, rfl, rfl⟩
        · split_ifs at h
          cases h
          exact .finish false hown rfl (Or.inl rfl) rfl
        · cases h
      · cases h
    | next =>
      simp only [stepPrefetch] at h
      repeat' split at h
      all_goals cases h
      all_goals
        first
          | exact .none rfl rfl rfl
          | exact .claim (by assumption) (by assumption) (by simp [setPrefetch]) rfl rfl rfl
    | _ =>
      simp only [stepPrefetch] at h
      repeat' split at h
      all_goals cases h
      all_goals exact .none rfl rfl rfl
  | demand b =>
    simp only [step] at h
    cases b <;> simp only [stepDemand] at h <;> (try split_ifs at h with hg) <;> cases h
    · exact .quiet rfl rfl rfl (by simp)
    · exact .quiet rfl rfl rfl (by simp [hg])
    · exact .load hg.2 rfl rfl rfl
    · exact .finish _ hg rfl (Or.inl rfl) rfl

/-! ## The invariant -/

/-- The chunk holds loaded bytes. -/
def Loaded (v : View) : Prop := v.state = .cached ∨ v.state = .inUse ∨ v.state = .evicting

/-- What holds of chunk `c` and its load. -/
structure ChunkExtent (cb : ℕ) (s : Cache) (c : ℕ) : Prop where
  encodable : Encodable (s.chunk c).fill
  isSet : (s.chunk c).state = .loading ∨ (s.chunk c).Readable → (s.chunk c).fill.isUnset = false
  loading : ∀ l, s.loader c = some l → (s.chunk c).state = .loading
  owned : ∀ f, s.loader c = some (.prefetch f) → ∃ r pc w, s.prefetch f = some (r, pc) ∧
    Owns pc ∧ w ∈ (s.req r).wants ∧ w.chunk = c ∧ w.Covered cb (s.chunk c).fill
  loaded : ∀ r, s.loadedFor c = some r → Loaded (s.chunk c) ∧ (s.req r).phase = .committed ∧
    ∃ w ∈ (s.req r).wants, w.chunk = c ∧ w.Covered cb (s.chunk c).fill

structure Extents (cb : ℕ) (s : Cache) : Prop where
  called : ∀ f r pc, s.prefetch f = some (r, pc) → (s.req r).phase = .committed
  claiming : ∀ f r todo, s.prefetch f = some (r, .claiming todo) → todo ⊆ (s.req r).wants
  chunk : ∀ c, ChunkExtent cb s c

/-- `prefetch` claims a chunk only when the extent recorded in it covers the
    extent that its request wants, and a demand read claims one only for an extent
    that is not unset. -/
def ClaimsCovered (cb : ℕ) (s : Cache) : Action → Prop
  | .prefetch f .next => ∀ r w todo, s.prefetch f = some (r, .claiming (w :: todo)) →
    (s.chunk w.chunk).state = .allocated → w.Covered cb (s.chunk w.chunk).fill
  | .demand (.load c lo hi) => (neededFill (c * cb) cb lo hi).isUnset = false
  | _ => True

/-- An operation that is neither the start nor the end of a load keeps loads and
    loaded chunks as they are, and makes none. -/
theorem op_quiet {s : Cache} {c : ℕ} {o : Op} (hp : PinsInUse s)
    (ho : o ∈ [.markQueued, .markAllocated, .addSubscriber, .dropSubscriber] ∨
      (∃ want, o = .mergeFill want) ∨ (∃ only, o = .markEvicting only) ∨
      (∃ lo hi, o = .tryPinCovering (c * cb) cb lo hi) ∨
      o = .releaseRead ∧ 0 < (s.chunk c).pins) :
    ((s.chunk c).state = .loading → (s.op c o).state = .loading ∧
      (s.op c o).fill = (s.chunk c).fill) ∧
    (Loaded (s.chunk c) → Loaded (s.op c o) ∧ (s.op c o).fill = (s.chunk c).fill) ∧
    ((s.op c o).state = .loading ∨ (s.op c o).Readable →
      (s.chunk c).state = .loading ∨ (s.chunk c).Readable) ∧
    (Encodable (s.chunk c).fill → Encodable (s.op c o).fill) := by
  have hpin := hp c
  simp only [List.mem_cons, List.not_mem_nil, or_false] at ho
  unfold op Loaded View.Readable
  rcases ho with (rfl | rfl | rfl | rfl) | ⟨want, rfl⟩ | ⟨only, rfl⟩ | ⟨lo, hi, rfl⟩ | ⟨rfl, hpos⟩
  case inl.inl | inl.inr.inl | inl.inr.inr.inl | inl.inr.inr.inr =>
    simp only [View.attempt, View.transition]
    split_ifs <;> simp_all [Attempt.apply]
  · simp only [View.attempt]
    split_ifs <;> simp_all [Attempt.apply, encodable_stored]
    all_goals grind
  · simp only [View.attempt]
    split_ifs <;> simp_all [Attempt.apply]
    all_goals grind
  · simp only [View.attempt, View.pinOnce]
    split_ifs <;> simp_all [Attempt.apply, View.Readable]
    all_goals grind
  · have := hpin hpos
    simp only [View.attempt]
    split_ifs <;> simp_all [Attempt.apply]

theorem op_takeLoading {s : Cache} {c : ℕ} (h : s.ret c .takeLoading = true) :
    (s.chunk c).state = .allocated ∧
      s.op c .takeLoading = { s.chunk c with state := .loading } := by
  simp only [ret, op, View.attempt] at h ⊢
  split_ifs at h ⊢ with hg
  · exact ⟨hg.1, rfl⟩
  · cases h

theorem op_takeLoadingMerging {s : Cache} {c : ℕ} {want : ChunkFill}
    (h : s.ret c (.takeLoadingMerging want) = true) :
    (s.chunk c).state = .allocated ∧ s.op c (.takeLoadingMerging want) =
      { s.chunk c with state := .loading, fill := stored (merge (s.chunk c).fill want) } := by
  simp only [ret, op, View.attempt] at h ⊢
  split_ifs at h ⊢ with hg
  · exact ⟨hg.1, rfl⟩
  · cases h

theorem op_finish {s : Cache} {c : ℕ} (hp : PinsInUse s) (h : (s.chunk c).state = .loading)
    (ok : Bool) : s.op c (if ok then .markCached else .markLoadFailed) =
      { s.chunk c with state := if ok then .cached else .allocated } := by
  have hpins : (s.chunk c).pins = 0 := by
    by_contra hne
    have := hp c (by omega)
    rw [h] at this
    cases this
  cases ok <;> simp [op, View.attempt, View.transition, h, hpins, Attempt.apply]

theorem op_markEmpty (s : Cache) (c : ℕ) :
    s.op c .markEmpty = s.chunk c ∨ (s.chunk c).state = .evicting ∧
      s.op c .markEmpty = { s.chunk c with state := .empty, fill := unset } := by
  simp only [op, View.attempt]
  split_ifs with hg
  · exact Or.inr ⟨hg.1, rfl⟩
  · exact Or.inl rfl

section Step

variable {s s' : Cache} {a : Action} (hE : Extents cb s) (h : s.step cb a = some s')
include hE h

theorem prefetching_step {f r : ℕ} {pc' : PrefetchPc} (hp : s'.prefetch f = some (r, pc')) :
    (s.req r).phase = .committed ∧ (∀ todo, pc' = .claiming todo → todo ⊆ (s.req r).wants) := by
  rcases (calls_step h).2.2 f with hsame | ⟨b, rfl⟩
  · rw [hsame] at hp
    refine ⟨hE.called f r pc' hp, ?_⟩
    rintro todo rfl
    exact hE.claiming f r todo hp
  · rcases prefetch_move h with ⟨-, r0, hc, hs⟩ | ⟨r0, pc, h0, ⟨pc0, hs, hm⟩ | ⟨hs, -⟩⟩
    · rw [hs] at hp
      cases hp
      exact ⟨hc, by rintro todo ⟨⟩⟩
    · rw [hs] at hp
      cases hp
      refine ⟨hE.called f r pc h0, ?_⟩
      rintro todo rfl
      generalize hpc : PrefetchPc.claiming todo = pc' at hm
      cases hm with
      | claim =>
        cases hpc
        exact List.Subset.refl _
      | next w todo =>
        cases hpc
        exact fun x hx => hE.claiming f r _ h0 (List.mem_cons_of_mem _ hx)
      | wait => exact hE.claiming f r todo (hpc ▸ h0)
      | _ => cases hpc
    · rw [hs] at hp
      cases hp

omit hE in
/-- A call keeps what it owns until it has none left. -/
theorem owns_step {c f r : ℕ} {pc : PrefetchPc} {w : Want} (hp : s.prefetch f = some (r, pc))
    (ho : Owns pc) (hw : w ∈ (s.req r).wants) (hwc : w.chunk = c)
    (hl : s.loader c = some (.prefetch f)) :
    ∃ pc', s'.prefetch f = some (r, pc') ∧ Owns pc' := by
  rcases (calls_step h).2.2 f with hsame | ⟨b, rfl⟩
  · exact ⟨pc, by rw [hsame]; exact hp, ho⟩
  · rcases prefetch_move h with ⟨hn, -⟩ | ⟨r0, pc0, h0, ⟨pc', hs, hm⟩ | ⟨-, hnone⟩⟩
    · rw [hn] at hp
      cases hp
    · rw [hp] at h0
      cases h0
      refine ⟨pc', hs, ?_⟩
      cases hm <;> first | exact trivial | exact ho
    · rw [hp] at h0
      cases h0
      exact absurd (hwc ▸ hl) (hnone ho w hw)

/-- A chunk whose load the step neither starts nor ends. -/
theorem chunkExtent_quiet {c : ℕ} (hl : s'.loader c = s.loader c)
    (hf : s'.loadedFor c = s.loadedFor c ∨ s'.loadedFor c = none)
    (hloading : (s.chunk c).state = .loading →
      (s'.chunk c).state = .loading ∧ (s'.chunk c).fill = (s.chunk c).fill)
    (hloaded : Loaded (s.chunk c) → Loaded (s'.chunk c) ∧ (s'.chunk c).fill = (s.chunk c).fill)
    (hset : (s'.chunk c).state = .loading ∨ (s'.chunk c).Readable →
      (s.chunk c).state = .loading ∨ (s.chunk c).Readable)
    (henc : Encodable (s.chunk c).fill → Encodable (s'.chunk c).fill) :
    ChunkExtent cb s' c := by
  have hC := hE.chunk c
  refine ⟨henc hC.encodable, fun hx => ?_, fun l hx => ?_, fun f hx => ?_, fun r hx => ?_⟩
  · have hfill : (s'.chunk c).fill = (s.chunk c).fill := by
      rcases hset hx with h1 | h1
      · exact (hloading h1).2
      · exact (hloaded (h1.imp id Or.inl)).2
    rw [hfill]
    exact hC.isSet (hset hx)
  · exact (hloading (hC.loading l (hl ▸ hx))).1
  · rw [hl] at hx
    obtain ⟨r, pc, w, hp, ho, hw, hwc, hcov⟩ := hC.owned f hx
    obtain ⟨pc', hp', ho'⟩ := owns_step h hp ho hw hwc hx
    rw [(hloading (hC.loading _ hx)).2]
    exact ⟨r, pc', w, hp', ho', (committed_stable h (hE.called f r pc hp)).2 ▸ hw, hwc, hcov⟩
  · have hfor : s.loadedFor c = some r := by
      rcases hf with hf | hf
      · exact hf ▸ hx
      · rw [hf] at hx
        cases hx
    obtain ⟨hld, hc, w, hw, hwc, hcov⟩ := hC.loaded r hfor
    have hstay := committed_stable h hc
    rw [(hloaded hld).2]
    exact ⟨(hloaded hld).1, hstay.1, w, hstay.2 ▸ hw, hwc, hcov⟩

theorem chunkExtent_frame {c : ℕ} (hl : s'.loader c = s.loader c)
    (hf : s'.loadedFor c = s.loadedFor c ∨ s'.loadedFor c = none) (hc : s'.chunk c = s.chunk c) :
    ChunkExtent cb s' c := by
  refine chunkExtent_quiet hE h hl hf ?_ ?_ ?_ ?_ <;> rw [hc]
  · exact fun hx => ⟨hx, rfl⟩
  · exact fun hx => ⟨hx, rfl⟩
  · exact id
  · exact id

omit h in
/-- A load of chunk `c` starts: it was `allocated`. -/
theorem chunkExtent_start {c : ℕ} {l : Loader} (hs : (s.chunk c).state = .allocated)
    (hl : s'.loader c = some l) (hf : s'.loadedFor c = s.loadedFor c)
    (hs' : (s'.chunk c).state = .loading) (henc : Encodable (s'.chunk c).fill)
    (hset : (s'.chunk c).fill.isUnset = false)
    (hown : ∀ f, l = .prefetch f → ∃ r pc w, s'.prefetch f = some (r, pc) ∧ Owns pc ∧
      w ∈ (s'.req r).wants ∧ w.chunk = c ∧ w.Covered cb (s'.chunk c).fill) :
    ChunkExtent cb s' c := by
  refine ⟨henc, fun _ => hset, fun _ _ => hs', fun f hx => ?_, fun r hx => ?_⟩
  · rw [hl] at hx
    cases hx
    exact hown f rfl
  · obtain ⟨hld, -⟩ := (hE.chunk c).loaded r (hf ▸ hx)
    rw [Loaded, hs] at hld
    simp at hld

/-- A load of chunk `c` ends. -/
theorem chunkExtent_finish {c : ℕ} {l : Loader} {ok : Bool} (hown : s.loader c = some l)
    (hl : s'.loader c = none)
    (hf : s'.loadedFor c = s.loadedFor c ∨ s'.loadedFor c = none ∨
      ∃ f r, l = .prefetch f ∧ s.prefetch f = some (r, .inflight) ∧ ok = true ∧
        s'.loadedFor c = some r)
    (hc : s'.chunk c = { s.chunk c with state := if ok then .cached else .allocated }) :
    ChunkExtent cb s' c := by
  have hC := hE.chunk c
  have hst := hC.loading l hown
  have hfill : (s'.chunk c).fill = (s.chunk c).fill := by rw [hc]
  refine ⟨hfill ▸ hC.encodable, fun _ => hfill ▸ hC.isSet (Or.inl hst), fun l' hx => ?_,
    fun f hx => ?_, fun r hx => ?_⟩
  · rw [hl] at hx
    cases hx
  · rw [hl] at hx
    cases hx
  · rcases hf with hf | hf | ⟨f, r', rfl, hp, rfl, hf⟩
    · obtain ⟨hld, -⟩ := hC.loaded r (hf ▸ hx)
      rw [Loaded, hst] at hld
      simp at hld
    · rw [hf] at hx
      cases hx
    · rw [hf] at hx
      cases hx
      obtain ⟨r0, pc, w, hp0, -, hw, hwc, hcov⟩ := hC.owned f hown
      rw [hp] at hp0
      cases hp0
      have hstay := committed_stable h (hE.called f r _ hp)
      exact ⟨Or.inl (by rw [hc]; rfl), hstay.1, w, hstay.2 ▸ hw, hwc, hfill ▸ hcov⟩

end Step

theorem extents_step {s s' : Cache} {a : Action} (hmax : cb ≤ maxChunkBytes)
    (hE : Extents cb s) (hP : PinsInUse s) (hok : ClaimsCovered cb s a)
    (h : s.step cb a = some s') : Extents cb s' := by
  refine ⟨fun f r pc hp => (committed_stable h (prefetching_step hE h hp).1).1,
    fun f r todo hp => ?_, fun c => ?_⟩
  · have := prefetching_step hE h hp
    rw [(committed_stable h this.1).2]
    exact this.2 todo rfl
  have hC := hE.chunk c
  cases load_step h with
  | none hl hf hc => exact chunkExtent_frame hE h (by rw [hl]) (Or.inl (by rw [hf])) (by rw [hc])
  | quiet hl hf hc ho =>
    rename_i c0 o
    by_cases hcc : c = c0
    · subst hcc
      have hq := op_quiet hP ho
      have hself : s'.chunk c = s.op c o := by rw [hc, Function.update_self]
      rw [← hself] at hq
      exact chunkExtent_quiet hE h (by rw [hl]) (Or.inl (by rw [hf])) hq.1 hq.2.1 hq.2.2.1 hq.2.2.2
    · exact chunkExtent_frame hE h (by rw [hl]) (Or.inl (by rw [hf]))
        (by rw [hc, Function.update_of_ne hcc])
  | claim hp hret hp' hl hf hc =>
    rename_i f r w todo
    by_cases hcc : c = w.chunk
    · subst hcc
      obtain ⟨hs, hop⟩ := op_takeLoading hret
      have hself : s'.chunk w.chunk = { s.chunk w.chunk with state := .loading } := by
        rw [hc, Function.update_self, hop]
      have hcov : w.Covered cb (s.chunk w.chunk).fill := hok r w todo hp hs
      refine chunkExtent_start hE (l := .prefetch f) hs (by rw [hl, Function.update_self])
        (by rw [hf]) (by rw [hself]) (by rw [hself]; exact hC.encodable)
        (by rw [hself]; exact hcov.isUnset) ?_
      rintro f' ⟨⟩
      refine ⟨r, _, w, hp', trivial, ?_, rfl, by rw [hself]; exact hcov⟩
      rw [(committed_stable h (hE.called f r _ hp)).2]
      exact hE.claiming f r _ hp (List.mem_cons_self ..)
    · exact chunkExtent_frame hE h (by rw [hl, Function.update_of_ne hcc]) (Or.inl (by rw [hf]))
        (by rw [hc, Function.update_of_ne hcc])
  | load hret hl hf hc =>
    rename_i c0 lo hi
    by_cases hcc : c = c0
    · subst hcc
      obtain ⟨hs, hop⟩ := op_takeLoadingMerging hret
      have henc : Encodable (merge (s.chunk c).fill (neededFill (c * cb) cb lo hi)) :=
        encodable_merge hC.encodable (neededFill_encodable hmax)
      have hself : s'.chunk c = { s.chunk c with
          state := .loading
          fill := merge (s.chunk c).fill (neededFill (c * cb) cb lo hi) } := by
        rw [hc, Function.update_self, hop, stored_of_encodable henc]
      refine chunkExtent_start hE (l := .demand) hs (by rw [hl, Function.update_self])
        (by rw [hf]) (by rw [hself]) (by rw [hself]; exact henc) ?_ (by rintro f ⟨⟩)
      rw [hself]
      exact merge_isUnset hok
    · exact chunkExtent_frame hE h (by rw [hl, Function.update_of_ne hcc]) (Or.inl (by rw [hf]))
        (by rw [hc, Function.update_of_ne hcc])
  | finish ok hown hl hf hc =>
    rename_i c0 l
    by_cases hcc : c = c0
    · subst hcc
      refine chunkExtent_finish hE h hown (by rw [hl, Function.update_self]) ?_
        (by rw [hc, Function.update_self, op_finish hP (hC.loading l hown)])
      rcases hf with hf | hf | ⟨f, r, h1, h2, h3, hf⟩
      · exact Or.inl (by rw [hf])
      · exact Or.inr (Or.inl (by rw [hf, Function.update_self]))
      · exact Or.inr (Or.inr ⟨f, r, h1, h2, h3, by rw [hf, Function.update_self]⟩)
    · refine chunkExtent_frame hE h (by rw [hl, Function.update_of_ne hcc]) ?_
        (by rw [hc, Function.update_of_ne hcc])
      left
      rcases hf with hf | hf | ⟨f, r, -, -, -, hf⟩
      · rw [hf]
      · rw [hf, Function.update_of_ne hcc]
      · rw [hf, Function.update_of_ne hcc]
  | detach he hl hf hc =>
    rename_i pass1 c0
    by_cases hcc : c = c0
    · subst hcc
      have hnone : s'.loadedFor c = none := by rw [hf, Function.update_self]
      have hself : s'.chunk c = s.op c .markEmpty := by rw [hc, Function.update_self]
      rcases op_markEmpty s c with hop | ⟨hev, hop⟩
      · exact chunkExtent_frame hE h (by rw [hl]) (Or.inr hnone) (hself.trans hop)
      · have hfree : ∀ l, s'.loader c ≠ some l := by
          intro l hx
          rw [hl] at hx
          have := hC.loading l hx
          rw [hev] at this
          cases this
        rw [hop] at hself
        refine ⟨by rw [hself]; exact encodable_unset, ?_, fun l hx => absurd hx (hfree l),
          fun f hx => absurd hx (hfree _), fun r hx => ?_⟩
        · rw [hself]
          simp [View.Readable]
        · rw [hnone] at hx
          cases hx
    · exact chunkExtent_frame hE h (by rw [hl]) (Or.inl (by rw [hf, Function.update_of_ne hcc]))
        (by rw [hc, Function.update_of_ne hcc])

/-! ## Result -/

theorem ret_tryPinCovering {s : Cache} {c off cb lo hi : ℕ} (hr : (s.chunk c).Readable)
    (hc : covers (s.chunk c).fill off cb lo hi = true) :
    s.ret c (.tryPinCovering off cb lo hi) = true := by
  simp only [ret, View.attempt, View.pinOnce, hr, hc, and_self, if_true]
  split_ifs <;> rfl

/-- **A loaded chunk can be hit.** In every run in which `prefetch` claims a
    chunk only when the extent recorded in it covers the extent that its request
    wants, and a demand read only for an extent that is not unset: a chunk that is
    `cached` or `in_use` has a recorded extent that is not unset, and
    `try_pin_covering` over the required fill of the request whose prefetch loaded
    it succeeds, until the chunk is reclaimed. -/
theorem loaded_chunk_hit (hmax : cb ≤ maxChunkBytes) {as : List Action} {s : Cache}
    (hrun : run (step cb) start as = some s)
    (hok : Meets (step cb) (ClaimsCovered cb) start as) {c : ℕ} (hr : (s.chunk c).Readable) :
    (s.chunk c).fill.isUnset = false ∧
    ∀ r, s.loadedFor c = some r → (s.req r).Names c ∧ ∀ w ∈ (s.req r).wants, w.chunk = c →
      s.ret c (.tryPinCovering (c * cb) cb (fillSpan (w.fill cb) (c * cb) cb).1
        (fillSpan (w.fill cb) (c * cb) cb).2) = true := by
  obtain ⟨hI, -, hE⟩ : Inv s ∧ PinsInUse s ∧ Extents cb s := by
    refine hok.run_invariant (I := fun s => Inv s ∧ PinsInUse s ∧ Extents cb s) ?_ ?_ hrun
    · rintro s a s' ⟨hI, hP, hE⟩ hok h
      exact ⟨inv_step hI h, pinsInUse_step hP h, extents_step hmax hE hP hok h⟩
    · refine ⟨inv_start, fun c hc => absurd hc (lt_irrefl 0), by rintro f r pc ⟨⟩,
        by rintro f r todo ⟨⟩, fun c => ?_⟩
      refine ⟨encodable_unset, ?_, by rintro l ⟨⟩, by rintro f ⟨⟩, by rintro r ⟨⟩⟩
      rintro (hx | hx | hx) <;> cases hx
  refine ⟨(hE.chunk c).isSet (Or.inr hr), fun r hfor => ?_⟩
  obtain ⟨-, -, w, hw, rfl, hcov⟩ := (hE.chunk c).loaded r hfor
  refine ⟨⟨w, hw, rfl⟩, fun w' hw' hww => ?_⟩
  obtain rfl : w' = w := List.inj_on_of_nodup_map (hI.wf r).nodup hw' hw hww
  exact ret_tryPinCovering hr hcov

/-- A `prefetch` on request `r` that loads one chunk. -/
def prefetchOne (r : ℕ) : List Action :=
  [.prefetch 0 (.call r), .prefetch 0 .next, .prefetch 0 .next, .prefetch 0 .next,
    .prefetch 0 .next, .prefetch 0 (.complete 0 true), .prefetch 0 (.terminal true)]

/-- A prepared request whose chunk is loaded and then hit. -/
theorem loaded_chunk_hit_prefetched : ∃ s, run (step 4096) start (subscribe 0 ++
      prepareToAttach 0 ++ attachAndPublish ++ prefetchOne 0) = some s ∧
    (s.chunk 0).Readable ∧ s.loadedFor 0 = some 0 ∧ (s.chunk 0).fill.isUnset = false ∧
    s.ret 0 (.tryPinCovering 0 4096 0 4096) = true := by
  have hrun : ∃ s, run (step 4096) start (subscribe 0 ++ prepareToAttach 0 ++ attachAndPublish ++
      prefetchOne 0) = some s ∧ (s.chunk 0).state = .cached ∧ s.loadedFor 0 = some 0 ∧
      (s.req 0).wants = [firstChunk] := ⟨_, rfl, rfl, rfl, rfl⟩
  obtain ⟨s, hs, hst, hfor, hw⟩ := hrun
  have hmeets : Meets (step 4096) (ClaimsCovered 4096) start (subscribe 0 ++ prepareToAttach 0 ++
      attachAndPublish ++ prefetchOne 0) := by
    simp only [subscribe, prepareToAttach, attachAndPublish, prefetchOne, List.cons_append,
      List.nil_append]
    iterate 17 refine Meets.cons trivial rfl ?_
    iterate 2 refine Meets.cons (by rintro r w todo ⟨⟩) rfl ?_
    refine Meets.cons ?_ rfl ?_
    · rintro r w todo ⟨⟩ -
      decide
    refine Meets.cons (by rintro r w todo ⟨⟩) rfl ?_
    exact Meets.cons trivial rfl (Meets.cons trivial rfl trivial)
  have hhit := loaded_chunk_hit (by decide) hs hmeets (Or.inl hst)
  refine ⟨s, hs, Or.inl hst, hfor, hhit.1, (hhit.2 0 hfor).2 firstChunk ?_ rfl⟩
  rw [hw]
  exact List.mem_singleton.mpr rfl

/-- Request `1` subscribes to chunk `0` while the evictor reclaims it, so its
    extent is not recorded. It is then prepared and prefetched: the chunk is
    `cached` with an unset extent, and its bytes are never hit. -/
theorem prefetch_loads_unset_extent : ∃ as s, run (step 4096) start as = some s ∧
    (s.chunk 0).state = .cached ∧ (s.chunk 0).fill.isUnset = true ∧ s.loadedFor 0 = some 1 ∧
    (s.req 1).wants = [firstChunk] ∧
    s.ret 0 (.tryPinCovering 0 4096 (fillSpan (firstChunk.fill 4096) 0 4096).1
      (fillSpan (firstChunk.fill 4096) 0 4096).2) = false := by
  refine ⟨subscribe 0 ++ prepareToAttach 0 ++ attachAndPublish ++ release 0 ++
    [Action.evictor .startRelease, .evictor .endRelease, .evictor (.endRetire true),
      .evictor (.evict 0 0)] ++ subscribe 1 ++ [Action.evictor .detach] ++ prepareToAttach 1 ++
    attachAndPublish ++ prefetchOne 1, ?_⟩
  exact ⟨_, rfl, rfl, rfl, rfl, rfl, rfl⟩

end Cache

end Sirius.IoCache
