import Sirius.Common.Checked

/-!
# Loops that read and put

A loop that reads from a state and puts each value it reads into an accumulator.
`gather` is the reading alone: it returns the state after the loop and the values in
the order they were read. What the loop does with the accumulator is then one `put`
of all the values.

* `foldlM_gather`: the loop returns exactly when the reading does and the put of the
  values read does, with their results.
* `gather_rel`: a relation that the reading of every element extends.
-/

namespace Sirius.Common

universe u

variable {ε : Type u} {α β σ τ χ : Type}

/-- The values that a loop over `as` reads, with the state it leaves. -/
def gather (read : σ → α → Except ε (σ × List β)) : σ → List α → Except ε (σ × List β)
  | s, [] => .ok (s, [])
  | s, a :: as => do
    let (s, vs) ← read s a
    let (s, ws) ← gather read s as
    .ok (s, vs ++ ws)

variable {read : σ → α → Except ε (σ × List β)}

theorem gather_cons_eq_ok {s s' : σ} {a : α} {as : List α} {us : List β} :
    gather read s (a :: as) = .ok (s', us) ↔
      ∃ s₁ vs ws, read s a = .ok (s₁, vs) ∧ gather read s₁ as = .ok (s', ws) ∧ us = vs ++ ws := by
  simp only [gather, bind_eq_ok, Prod.exists, Except.ok.injEq, Prod.mk.injEq]
  constructor
  · rintro ⟨s₁, vs, hread, s₂, ws, hrest, rfl, rfl⟩
    exact ⟨s₁, vs, ws, hread, hrest, rfl⟩
  · rintro ⟨s₁, vs, ws, hread, hrest, rfl⟩
    exact ⟨s₁, vs, hread, s', ws, hrest, rfl, rfl⟩

/-- What every reading extends by its element and its values holds of the whole loop. -/
theorem gather_rel {R : σ → List α → List β → σ → Prop} (hnil : ∀ s, R s [] [] s)
    (hcons : ∀ s a as s₁ vs ws s', read s a = .ok (s₁, vs) → R s₁ as ws s' →
      R s (a :: as) (vs ++ ws) s')
    {s s' : σ} {as : List α} {us : List β} (h : gather read s as = .ok (s', us)) :
    R s as us s' := by
  induction as generalizing s us with
  | nil =>
    obtain ⟨rfl⟩ := h
    exact hnil _
  | cons a as ih =>
    obtain ⟨s₁, vs, ws, hread, hrest, rfl⟩ := gather_cons_eq_ok.mp h
    exact hcons s a as s₁ vs ws s' hread (ih hrest)

/-- How a put takes the values of two readings: those of the first, then those of the
second. -/
structure Puts (put : List β → τ → Except ε τ) : Prop where
  nil : ∀ t, put [] t = .ok t
  append : ∀ vs ws t, put (vs ++ ws) t = put vs t >>= put ws

theorem Puts.foldlM (f : τ → β → Except ε τ) : Puts fun vs t => vs.foldlM f t where
  nil _ := rfl
  append _ _ _ := List.foldlM_append

/-- A loop whose every step reads and puts returns exactly when the reading of the whole
loop does and one put of all its values does. `mk` builds the loop's state from the state
that is read and the accumulator. -/
theorem foldlM_gather {put : List β → τ → Except ε τ} (hput : Puts put) (mk : σ → τ → χ)
    (step : χ → α → Except ε χ) {as : List α}
    (hstep : ∀ s t, ∀ a ∈ as, ∀ x, step (mk s t) a = .ok x ↔
      ∃ s' vs t', read s a = .ok (s', vs) ∧ put vs t = .ok t' ∧ x = mk s' t')
    (s : σ) (t : τ) {x : χ} :
    as.foldlM step (mk s t) = .ok x ↔
      ∃ s' vs t', gather read s as = .ok (s', vs) ∧ put vs t = .ok t' ∧ x = mk s' t' := by
  induction as generalizing s t with
  | nil =>
    constructor
    · rintro ⟨rfl⟩
      exact ⟨s, [], t, rfl, hput.nil t, rfl⟩
    · rintro ⟨s', vs, t', ⟨rfl⟩, ht, rfl⟩
      rw [hput.nil] at ht
      obtain ⟨rfl⟩ := ht
      rfl
  | cons a as ih =>
    have htail := fun s t b hb => hstep s t b (List.mem_cons_of_mem a hb)
    rw [List.foldlM_cons, bind_eq_ok]
    constructor
    · rintro ⟨x₁, hfirst, hrest⟩
      obtain ⟨s₁, vs, t₁, hread, hvs, rfl⟩ := (hstep s t a List.mem_cons_self x₁).mp hfirst
      obtain ⟨s', ws, t', hgather, hws, rfl⟩ := (ih htail s₁ t₁).mp hrest
      refine ⟨s', vs ++ ws, t', gather_cons_eq_ok.mpr ⟨s₁, vs, ws, hread, hgather, rfl⟩, ?_, rfl⟩
      rw [hput.append, hvs, ok_bind, hws]
    · rintro ⟨s', us, t', hgather, hus, rfl⟩
      obtain ⟨s₁, vs, ws, hread, hrest, rfl⟩ := gather_cons_eq_ok.mp hgather
      rw [hput.append, bind_eq_ok] at hus
      obtain ⟨t₁, hvs, hws⟩ := hus
      exact ⟨mk s₁ t₁, (hstep s t a List.mem_cons_self _).mpr ⟨s₁, vs, t₁, hread, hvs, rfl⟩,
        (ih htail s₁ t₁).mpr ⟨s', ws, t', hrest, hws, rfl⟩⟩

end Sirius.Common
