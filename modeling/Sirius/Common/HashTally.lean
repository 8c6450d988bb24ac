import Mathlib

/-!
# Tallies in hash buckets

Two lists are tallied by a key. The entries stand in a list, and a bucket for each hash has the
positions of the entries with that hash; the key decides within a bucket, so that other keys may
share a hash.

* `Tally.note`: one more element of the left or the right list.
* `Tallied`: what the tally says about the lists.
* `Tallied.note`: an element keeps it, when equal keys have equal hashes.
* `Tallied.balanced_iff`: the two sides of every entry are equal when the lists have the same keys.
-/

namespace Sirius.Common.HashTally

variable {α κ η : Type*} [DecidableEq κ]

/-- A value, and how often it stands on either side. -/
structure Entry (α : Type*) where
  value : α
  left : ℕ
  right : ℕ

/-- The entries, and for each hash the places of its entries. -/
structure Tally (α η : Type*) where
  entries : List (Entry α) := []
  buckets : η → List ℕ := fun _ => []

/-- One more occurrence, on the left or on the right. -/
def Entry.bump (isLeft : Bool) (e : Entry α) : Entry α :=
  if isLeft then { e with left := e.left + 1 } else { e with right := e.right + 1 }

@[simp] theorem Entry.bump_value (isLeft : Bool) (e : Entry α) : (e.bump isLeft).value = e.value := by
  unfold Entry.bump
  split_ifs <;> rfl

variable (key : α → κ) (hash : α → η)

/-- The entry at a position has the key. -/
def Tally.hasKey (t : Tally α η) (x : α) (i : ℕ) : Bool :=
  match t.entries[i]? with
  | some e => key e.value = key x
  | none => false

/-- An element is counted in its entry, which is made when there is none. -/
def Tally.note [DecidableEq η] (t : Tally α η) (x : α) (isLeft : Bool) : Tally α η :=
  let bucket := t.buckets (hash x)
  match bucket.find? (t.hasKey key x) with
  | some i => { t with entries := t.entries.modify i (Entry.bump isLeft) }
  | none =>
    { entries := t.entries ++ [Entry.bump isLeft ⟨x, 0, 0⟩]
      buckets := Function.update t.buckets (hash x) (bucket ++ [t.entries.length]) }

variable {key hash}

/-- The tally of two lists. -/
structure Tallied (key : α → κ) (hash : α → η) (ls rs : List α) (t : Tally α η) : Prop where
  bucket : ∀ h i, i ∈ t.buckets h ↔ ∃ e, t.entries[i]? = some e ∧ hash e.value = h
  distinct : (t.entries.map fun e => key e.value).Nodup
  source : ∀ e ∈ t.entries, e.value ∈ ls ++ rs
  complete : ∀ x ∈ ls ++ rs, key x ∈ t.entries.map fun e => key e.value
  counts : ∀ e ∈ t.entries, e.left = (ls.map key).count (key e.value) ∧
    e.right = (rs.map key).count (key e.value)

variable {ls rs : List α} {t : Tally α η} {x : α}

theorem tallied_nil : Tallied key hash [] [] ({} : Tally α η) where
  bucket := by simp
  distinct := List.nodup_nil
  source := by simp
  complete := by simp
  counts := by simp

/-- The lists with one more element. -/
def grow (ls : List α) (x : α) (here : Bool) : List α := if here then ls ++ [x] else ls

theorem mem_grow (ls rs : List α) (x y : α) (isLeft : Bool) :
    y ∈ grow ls x isLeft ++ grow rs x !isLeft ↔ y = x ∨ y ∈ ls ++ rs := by
  cases isLeft <;> simp [grow] <;> tauto

theorem count_grow (ls : List α) (x : α) (here : Bool) (k : κ) :
    ((grow ls x here).map key).count k
      = (ls.map key).count k + if here ∧ key x = k then 1 else 0 := by
  cases here with
  | false => simp [grow]
  | true => simp [grow, List.count_append, List.count_singleton]

/-- The search in the bucket finds the entry of the key, when there is one. -/
theorem Tallied.find (ht : Tallied key hash ls rs t)
    (hhash : ∀ y ∈ ls ++ rs, key y = key x → hash y = hash x) :
    (∃ i e, (t.buckets (hash x)).find? (t.hasKey key x) = some i ∧ t.entries[i]? = some e ∧
      key e.value = key x) ∨
    ((t.buckets (hash x)).find? (t.hasKey key x) = none ∧
      key x ∉ t.entries.map fun e => key e.value) := by
  cases hfind : (t.buckets (hash x)).find? (t.hasKey key x) with
  | some i =>
    have hkey := List.find?_some hfind
    unfold Tally.hasKey at hkey
    cases he : t.entries[i]? with
    | none => simp [he] at hkey
    | some e =>
      rw [he] at hkey
      exact .inl ⟨i, e, rfl, he, of_decide_eq_true hkey⟩
  | none =>
    refine .inr ⟨rfl, fun hmem => ?_⟩
    obtain ⟨e, he, hkey⟩ := List.mem_map.mp hmem
    obtain ⟨i, hi, hget⟩ := List.mem_iff_getElem.mp he
    have hentry : t.entries[i]? = some e := by rw [List.getElem?_eq_getElem hi, hget]
    have hbucket := (ht.bucket (hash x) i).mpr ⟨e, hentry, hhash e.value (ht.source e he) hkey⟩
    have hnot := List.find?_eq_none.mp hfind i hbucket
    simp [Tally.hasKey, hentry, hkey] at hnot

theorem count_bump {e : Entry α} (isLeft : Bool) (hkey : key e.value = key x)
    (h : e.left = (ls.map key).count (key e.value) ∧ e.right = (rs.map key).count (key e.value)) :
    (e.bump isLeft).left = ((grow ls x isLeft).map key).count (key e.value) ∧
      (e.bump isLeft).right = ((grow rs x !isLeft).map key).count (key e.value) := by
  rw [count_grow, count_grow, ← h.1, ← h.2]
  cases isLeft <;> simp [Entry.bump, hkey]

theorem count_other {e : Entry α} (isLeft : Bool) (hkey : key e.value ≠ key x)
    (h : e.left = (ls.map key).count (key e.value) ∧ e.right = (rs.map key).count (key e.value)) :
    e.left = ((grow ls x isLeft).map key).count (key e.value) ∧
      e.right = ((grow rs x !isLeft).map key).count (key e.value) := by
  rw [count_grow, count_grow, ← h.1, ← h.2]
  simp [Ne.symm hkey]

/-- The entry of the key counts one more. -/
theorem Tallied.bumped (ht : Tallied key hash ls rs t) {i : ℕ} {e : Entry α}
    (he : t.entries[i]? = some e) (hkey : key e.value = key x) (isLeft : Bool) :
    Tallied key hash (grow ls x isLeft) (grow rs x !isLeft)
      { t with entries := t.entries.modify i (Entry.bump isLeft) } := by
  obtain ⟨hi, rfl⟩ := List.getElem?_eq_some_iff.mp he
  have hvalues : (t.entries.modify i (Entry.bump isLeft)).map (fun e => e.value)
      = t.entries.map fun e => e.value := by
    apply List.ext_getElem?
    intro k
    rw [List.getElem?_map, List.getElem?_map, List.getElem?_modify]
    cases t.entries[k]? with
    | none => rfl
    | some e => by_cases hk : i = k <;> simp [hk]
  have hkeys := congrArg (List.map key) hvalues
  simp only [List.map_map, Function.comp_def] at hkeys
  refine ⟨fun h k => ?_, ?_, fun e' he' => ?_, fun y hy => ?_, fun e' he' => ?_⟩
  · have hget := congrArg (·[k]?) hvalues
    simp only [List.getElem?_map] at hget
    rw [ht.bucket]
    constructor
    · rintro ⟨e', hk, rfl⟩
      rw [hk, Option.map_some, Option.map_eq_some_iff] at hget
      obtain ⟨e₂, hk₂, heq⟩ := hget
      exact ⟨e₂, hk₂, by rw [heq]⟩
    · rintro ⟨e', hk, rfl⟩
      rw [hk, Option.map_some, eq_comm, Option.map_eq_some_iff] at hget
      obtain ⟨e₂, hk₂, heq⟩ := hget
      exact ⟨e₂, hk₂, by rw [heq]⟩
  · show ((t.entries.modify i (Entry.bump isLeft)).map fun e => key e.value).Nodup
    rw [hkeys]
    exact ht.distinct
  · rw [mem_grow]
    have hmem : e'.value ∈ (t.entries.modify i (Entry.bump isLeft)).map fun e => e.value :=
      List.mem_map_of_mem he'
    rw [hvalues] at hmem
    obtain ⟨e₂, he₂, heq⟩ := List.mem_map.mp hmem
    exact .inr (heq ▸ ht.source e₂ he₂)
  · show key y ∈ (t.entries.modify i (Entry.bump isLeft)).map fun e => key e.value
    rw [hkeys]
    rcases (mem_grow ls rs x y isLeft).mp hy with rfl | hy
    · exact List.mem_map.mpr ⟨_, List.getElem_mem hi, hkey⟩
    · exact ht.complete y hy
  · obtain ⟨k, hk, hget⟩ := List.mem_iff_getElem.mp he'
    have hentry : (t.entries.modify i (Entry.bump isLeft))[k]? = some e' := by
      rw [List.getElem?_eq_getElem hk, hget]
    rw [List.getElem?_modify] at hentry
    obtain ⟨e₂, hk₂, heq⟩ := Option.map_eq_some_iff.mp hentry
    have hcounts := ht.counts e₂ (List.mem_of_getElem? hk₂)
    by_cases hik : i = k
    · subst hik
      obtain rfl := Option.some.inj (he.symm.trans hk₂)
      rw [if_pos rfl] at heq
      subst heq
      rw [Entry.bump_value]
      exact count_bump isLeft hkey hcounts
    · rw [if_neg hik] at heq
      obtain rfl : e₂ = e' := heq
      refine count_other isLeft (fun hsame => hik ?_) hcounts
      -- two entries do not share a key
      have h₁ : (t.entries.map fun e => key e.value)[i]? = some (key x) := by simp [he, hkey]
      have h₂ : (t.entries.map fun e => key e.value)[k]? = some (key x) := by simp [hk₂, hsame]
      have hlt : i < (t.entries.map fun e => key e.value).length := by simpa using hi
      exact (List.getElem?_inj hlt ht.distinct).mp (h₁.trans h₂.symm)

theorem mem_update_concat [DecidableEq η] (buckets : η → List ℕ) (h₀ h : η) (n k : ℕ) :
    k ∈ Function.update buckets h₀ (buckets h₀ ++ [n]) h ↔ k ∈ buckets h ∨ h = h₀ ∧ k = n := by
  by_cases hh : h = h₀
  · subst hh
    simp
  · simp [hh]

/-- The key has a new entry. -/
theorem Tallied.added [DecidableEq η] (ht : Tallied key hash ls rs t)
    (hnew : key x ∉ t.entries.map fun e => key e.value) (isLeft : Bool) :
    Tallied key hash (grow ls x isLeft) (grow rs x !isLeft)
      { entries := t.entries ++ [Entry.bump isLeft ⟨x, 0, 0⟩]
        buckets := Function.update t.buckets (hash x)
          (t.buckets (hash x) ++ [t.entries.length]) } := by
  have hzero : ∀ (zs : List α), (∀ z ∈ zs, z ∈ ls ++ rs) → (zs.map key).count (key x) = 0 := by
    intro zs hzs
    rw [List.count_eq_zero]
    intro hmem
    obtain ⟨z, hz, hkey⟩ := List.mem_map.mp hmem
    exact hnew (hkey ▸ ht.complete z (hzs z hz))
  refine ⟨fun h k => ?_, ?_, fun e' he' => ?_, fun y hy => ?_, fun e' he' => ?_⟩
  · show k ∈ Function.update t.buckets (hash x) (t.buckets (hash x) ++ [t.entries.length]) h ↔
      ∃ e, (t.entries ++ [Entry.bump isLeft ⟨x, 0, 0⟩])[k]? = some e ∧ hash e.value = h
    rw [mem_update_concat, ht.bucket]
    rcases Nat.lt_trichotomy k t.entries.length with hk | rfl | hk
    · rw [List.getElem?_append_left hk]
      exact or_iff_left fun hlast => hk.ne hlast.2
    · rw [List.getElem?_concat_length, List.getElem?_eq_none le_rfl]
      simp [eq_comm]
    · have hnone : (t.entries ++ [Entry.bump isLeft ⟨x, 0, 0⟩])[k]? = none := by
        rw [List.getElem?_eq_none]
        simpa using hk
      rw [hnone, List.getElem?_eq_none hk.le]
      simp [hk.ne']
  · rw [List.map_append, List.map_singleton, Entry.bump_value, ← List.concat_eq_append,
      List.nodup_concat]
    exact ⟨hnew, ht.distinct⟩
  · rw [mem_grow]
    rcases List.mem_append.mp he' with he' | he'
    · exact .inr (ht.source e' he')
    · rw [List.mem_singleton.mp he', Entry.bump_value]
      exact .inl rfl
  · rw [List.map_append, List.map_singleton, Entry.bump_value, List.mem_append,
      List.mem_singleton]
    rcases (mem_grow ls rs x y isLeft).mp hy with rfl | hy
    · exact .inr rfl
    · exact .inl (ht.complete y hy)
  · rcases List.mem_append.mp he' with he' | he'
    · refine count_other isLeft (fun hsame => hnew ?_) (ht.counts e' he')
      exact hsame ▸ List.mem_map_of_mem he'
    · rw [List.mem_singleton.mp he', Entry.bump_value]
      refine count_bump (e := ⟨x, 0, 0⟩) isLeft rfl ⟨(hzero ls ?_).symm, (hzero rs ?_).symm⟩
      · exact fun z hz => List.mem_append_left rs hz
      · exact fun z hz => List.mem_append_right ls hz

/-- **One more element.** -/
theorem Tallied.note [DecidableEq η] (ht : Tallied key hash ls rs t)
    (hhash : ∀ y ∈ ls ++ rs, key y = key x → hash y = hash x) (isLeft : Bool) :
    Tallied key hash (grow ls x isLeft) (grow rs x !isLeft) (t.note key hash x isLeft) := by
  unfold Tally.note
  dsimp only
  rcases ht.find hhash with ⟨i, e, hfind, he, hkey⟩ | ⟨hfind, hnew⟩
  · rw [hfind]
    exact ht.bumped he hkey isLeft
  · rw [hfind]
    exact ht.added hnew isLeft

/-- **The lists have the same keys when every entry is balanced.** -/
theorem Tallied.balanced_iff (ht : Tallied key hash ls rs t) :
    (∀ e ∈ t.entries, e.left = e.right) ↔ (ls.map key).Perm (rs.map key) := by
  rw [List.perm_iff_count]
  constructor
  · intro hbalanced k
    by_cases hk : k ∈ t.entries.map fun e => key e.value
    · obtain ⟨e, he, rfl⟩ := List.mem_map.mp hk
      obtain ⟨hleft, hright⟩ := ht.counts e he
      rw [← hleft, ← hright]
      exact hbalanced e he
    · have hzero : ∀ zs : List α, (∀ z ∈ zs, z ∈ ls ++ rs) → (zs.map key).count k = 0 := by
        intro zs hzs
        rw [List.count_eq_zero]
        intro hmem
        obtain ⟨z, hz, rfl⟩ := List.mem_map.mp hmem
        exact hk (ht.complete z (hzs z hz))
      rw [hzero ls fun z hz => List.mem_append_left rs hz,
        hzero rs fun z hz => List.mem_append_right ls hz]
  · intro hcount e he
    obtain ⟨hleft, hright⟩ := ht.counts e he
    rw [hleft, hright]
    exact hcount _

end Sirius.Common.HashTally
