import Mathlib

/-!
# Depth-first traversals

A traversal that marks a vertex when it enters it, and then enters what comes next to it in order.
Nothing is done after the recursive calls, so the calls that are pending are a list. The vertices
are collected in the order in which they are entered.

* `Arrows`: for each vertex those that come next to it, all in a finite set.
* `traverse`: the vertices entered before, and those entered from a list of pending calls.
* `exists_entry`: the moment at which a vertex is entered, with an invariant of the traversal.
* `before_of_forest`: in a forest, what is under the first children of a vertex comes before what is
  only under the others.
-/

namespace Sirius.Common

variable {α : Type*} [DecidableEq α]

/-! ## The traversal -/

/-- What comes next to a vertex. -/
structure Arrows (α : Type*) where
  next : α → List α
  all : Finset α
  next_mem : ∀ p, ∀ q ∈ next p, q ∈ all

/-- What may still be entered. -/
def Arrows.unmarked (g : Arrows α) (visited todo : List α) : Finset α :=
  (todo.toFinset ∪ g.all) \ visited.toFinset

theorem Arrows.unmarked_skip (g : Arrows α) (visited todo : List α) (p : α) :
    (g.unmarked visited todo).card ≤ (g.unmarked visited (p :: todo)).card := by
  apply Finset.card_le_card
  intro x hx
  simp only [unmarked, Finset.mem_sdiff, Finset.mem_union, List.mem_toFinset, List.mem_cons] at hx ⊢
  tauto

theorem Arrows.unmarked_enter (g : Arrows α) {visited todo : List α} {p : α} (hp : p ∉ visited) :
    (g.unmarked (visited ++ [p]) (g.next p ++ todo)).card <
      (g.unmarked visited (p :: todo)).card := by
  apply Finset.card_lt_card
  rw [Finset.ssubset_iff_of_subset]
  · refine ⟨p, ?_, ?_⟩
    · simpa [unmarked] using hp
    · simp [unmarked]
  · intro x hx
    simp only [unmarked, Finset.mem_sdiff, Finset.mem_union, List.mem_toFinset, List.mem_append,
      List.mem_cons] at hx ⊢
    have := g.next_mem p x
    tauto

/-- The vertices in the order in which they are entered. -/
def traverse (g : Arrows α) (visited : List α) : List α → List α
  | [] => visited
  | p :: todo =>
    if _h : p ∈ visited then traverse g visited todo
    else traverse g (visited ++ [p]) (g.next p ++ todo)
termination_by todo => ((g.unmarked visited todo).card, todo.length)
decreasing_by
  · rw [Prod.lex_def]
    rcases (g.unmarked_skip visited todo p).lt_or_eq with hlt | heq
    · exact .inl hlt
    · exact .inr ⟨heq, Nat.lt_succ_self _⟩
  · exact Prod.Lex.left _ _ (g.unmarked_enter _h)

variable {g : Arrows α} {visited todo : List α} {p q c s t : α}

theorem traverse_skip (h : p ∈ visited) :
    traverse g visited (p :: todo) = traverse g visited todo := by
  rw [traverse, dif_pos h]

theorem traverse_enter (h : p ∉ visited) :
    traverse g visited (p :: todo) = traverse g (visited ++ [p]) (g.next p ++ todo) := by
  rw [traverse, dif_neg h]

/-- The invariant rule: what every step keeps holds at the end. -/
theorem traverse_invariant {I : List α → List α → Prop} (h : I visited todo)
    (hskip : ∀ visited p todo, I visited (p :: todo) → p ∈ visited → I visited todo)
    (henter : ∀ visited p todo, I visited (p :: todo) → p ∉ visited →
      I (visited ++ [p]) (g.next p ++ todo)) : I (traverse g visited todo) [] := by
  fun_induction traverse g visited todo with
  | case1 visited => exact h
  | case2 visited p todo hp ih => exact ih (hskip visited p todo h hp)
  | case3 visited p todo hp ih => exact ih (henter visited p todo h hp)

/-- The moment at which a vertex is entered. -/
theorem exists_entry {I : List α → List α → Prop} (h : I visited todo)
    (hskip : ∀ visited p todo, I visited (p :: todo) → p ∈ visited → I visited todo)
    (henter : ∀ visited p todo, I visited (p :: todo) → p ∉ visited →
      I (visited ++ [p]) (g.next p ++ todo))
    (hc : c ∈ traverse g visited todo) (hnew : c ∉ visited) :
    ∃ before rest, c ∉ before ∧ I before (c :: rest) ∧
      traverse g visited todo = traverse g (before ++ [c]) (g.next c ++ rest) := by
  fun_induction traverse g visited todo with
  | case1 visited => exact absurd hc hnew
  | case2 visited p todo hp ih => exact ih (hskip visited p todo h hp) hc hnew
  | case3 visited p todo hp ih =>
    by_cases heq : c = p
    · subst heq
      exact ⟨visited, todo, hnew, h, rfl⟩
    · exact ih (henter visited p todo h hp) hc (by simp [hnew, heq])

/-! ## What is entered -/

theorem traverse_append (g : Arrows α) (visited l₁ l₂ : List α) :
    traverse g visited (l₁ ++ l₂) = traverse g (traverse g visited l₁) l₂ := by
  fun_induction traverse g visited l₁ with
  | case1 visited => rfl
  | case2 visited p todo hp ih => rw [List.cons_append, traverse_skip hp, ih]
  | case3 visited p todo hp ih =>
    rw [List.cons_append, traverse_enter hp, ← List.append_assoc, ih]

theorem traverse_of_subset (h : ∀ p ∈ todo, p ∈ visited) : traverse g visited todo = visited := by
  induction todo with
  | nil => rw [traverse]
  | cons p todo ih =>
    rw [traverse_skip (h p List.mem_cons_self)]
    exact ih fun q hq => h q (List.mem_cons_of_mem p hq)

theorem prefix_traverse (g : Arrows α) (visited todo : List α) :
    visited <+: traverse g visited todo := by
  fun_induction traverse g visited todo with
  | case1 visited => exact List.prefix_rfl
  | case2 visited p todo hp ih => exact ih
  | case3 visited p todo hp ih => exact (List.prefix_append _ _).trans ih

theorem traverse_nodup (h : visited.Nodup) : (traverse g visited todo).Nodup := by
  refine traverse_invariant (I := fun visited _ => visited.Nodup) h (fun _ _ _ h _ => h) ?_
  intro visited p todo h hp
  exact List.nodup_append'.mpr ⟨h, List.nodup_singleton p, by simpa using hp⟩

/-- What is pending is entered. -/
theorem mem_traverse (h : p ∈ visited ∨ p ∈ todo) : p ∈ traverse g visited todo := by
  have := traverse_invariant (g := g) (I := fun visited todo => p ∈ visited ∨ p ∈ todo) h ?_ ?_
  · simpa using this
  · intro visited q todo h hq
    rcases h with h | h
    · exact .inl h
    · rcases List.mem_cons.mp h with rfl | h
      · exact .inl hq
      · exact .inr h
  · intro visited q todo h hq
    simp only [List.mem_append, List.mem_cons] at h ⊢
    tauto

/-- What comes next to a marked vertex is marked or pending. -/
def ClosedUpTo (g : Arrows α) (extra visited todo : List α) : Prop :=
  ∀ v ∈ visited, ∀ q ∈ g.next v, q ∈ visited ∨ q ∈ todo ∨ q ∈ extra

omit [DecidableEq α] in
theorem ClosedUpTo.skip {extra : List α} (h : ClosedUpTo g extra visited (p :: todo))
    (hp : p ∈ visited) : ClosedUpTo g extra visited todo := by
  intro v hv q hq
  rcases h v hv q hq with h | h | h
  · exact .inl h
  · rcases List.mem_cons.mp h with rfl | h
    · exact .inl hp
    · exact .inr (.inl h)
  · exact .inr (.inr h)

omit [DecidableEq α] in
theorem ClosedUpTo.enter {extra : List α} (h : ClosedUpTo g extra visited (p :: todo)) :
    ClosedUpTo g extra (visited ++ [p]) (g.next p ++ todo) := by
  intro v hv q hq
  rcases List.mem_append.mp hv with hv | hv
  · have := h v hv q hq
    simp only [List.mem_append, List.mem_cons] at this ⊢
    tauto
  · rw [List.mem_singleton.mp hv] at hq
    exact .inr (.inl (List.mem_append_left _ hq))

theorem ClosedUpTo.traverse {extra : List α} (h : ClosedUpTo g extra visited todo) :
    ClosedUpTo g extra (traverse g visited todo) [] :=
  traverse_invariant h (fun _ _ _ h hp => h.skip hp) fun _ _ _ h _ => h.enter

/-- Only what is reached from a pending call is entered. -/
theorem reached_of_mem_traverse (h : p ∈ traverse g visited todo) :
    p ∈ visited ∨ ∃ x ∈ todo, Relation.ReflTransGen (fun a b => b ∈ g.next a) x p := by
  fun_induction traverse g visited todo with
  | case1 visited => exact .inl h
  | case2 visited q todo hq ih =>
    rcases ih h with h | ⟨x, hx, hreach⟩
    · exact .inl h
    · exact .inr ⟨x, List.mem_cons_of_mem q hx, hreach⟩
  | case3 visited q todo hq ih =>
    rcases ih h with h | ⟨x, hx, hreach⟩
    · rcases List.mem_append.mp h with h | h
      · exact .inl h
      · exact .inr ⟨q, List.mem_cons_self, List.mem_singleton.mp h ▸ .refl⟩
    · rcases List.mem_append.mp hx with hx | hx
      · exact .inr ⟨q, List.mem_cons_self, .head hx hreach⟩
      · exact .inr ⟨x, List.mem_cons_of_mem q hx, hreach⟩

/-! ## Forests -/

/-- Every vertex comes next to at most one other, the roots to none, and none to itself through
    others. -/
structure Arrows.Forest (g : Arrows α) (roots : List α) : Prop where
  unique : ∀ a b q, q ∈ g.next a → q ∈ g.next b → a = b
  root : ∀ r ∈ roots, ∀ a, r ∉ g.next a
  acyclic : ∀ a, ¬ Relation.TransGen (fun a b => b ∈ g.next a) a a

/-- What is marked and what is pending is a root, or comes next to a marked vertex. -/
structure Grown (g : Arrows α) (roots visited todo : List α) : Prop where
  closed : ClosedUpTo g [] visited todo
  marked : ∀ v ∈ visited, v ∈ roots ∨ ∃ u ∈ visited, v ∈ g.next u
  pending : ∀ v ∈ todo, v ∈ roots ∨ ∃ u ∈ visited, v ∈ g.next u

variable {roots : List α}

omit [DecidableEq α] in
theorem Grown.start (g : Arrows α) (roots : List α) : Grown g roots [] roots where
  closed _ hv := nomatch hv
  marked _ hv := nomatch hv
  pending _ hv := .inl hv

omit [DecidableEq α] in
theorem Grown.skip (h : Grown g roots visited (p :: todo)) (hp : p ∈ visited) :
    Grown g roots visited todo where
  closed := h.closed.skip hp
  marked := h.marked
  pending v hv := h.pending v (List.mem_cons_of_mem p hv)

omit [DecidableEq α] in
theorem Grown.enter (h : Grown g roots visited (p :: todo)) :
    Grown g roots (visited ++ [p]) (g.next p ++ todo) := by
  have hmono : ∀ v, (v ∈ roots ∨ ∃ u ∈ visited, v ∈ g.next u) →
      v ∈ roots ∨ ∃ u ∈ visited ++ [p], v ∈ g.next u := by
    rintro v (hv | ⟨u, hu, hv⟩)
    · exact .inl hv
    · exact .inr ⟨u, List.mem_append_left _ hu, hv⟩
  refine ⟨h.closed.enter, fun v hv => ?_, fun v hv => ?_⟩
  · rcases List.mem_append.mp hv with hv | hv
    · exact hmono v (h.marked v hv)
    · rw [List.mem_singleton.mp hv]
      exact hmono p (h.pending p List.mem_cons_self)
  · rcases List.mem_append.mp hv with hv | hv
    · exact .inr ⟨p, List.mem_append_right _ (List.mem_singleton_self p), hv⟩
    · exact hmono v (h.pending v (List.mem_cons_of_mem p hv))

omit [DecidableEq α] in
/-- What is above a marked vertex of a forest is marked. -/
theorem Grown.climb (h : Grown g roots visited todo) (hf : g.Forest roots)
    (hreach : Relation.ReflTransGen (fun a b => b ∈ g.next a) c t) (ht : t ∈ visited) :
    c ∈ visited := by
  induction hreach with
  | refl => exact ht
  | tail _ hbt ih =>
    rcases h.marked _ ht with hroot | ⟨u, hu, htu⟩
    · exact absurd hbt (hf.root _ hroot _)
    · exact ih (hf.unique _ _ _ htu hbt ▸ hu)

/-- **The order of the children.** In a forest, what is under the first children of a vertex is
    entered before what is only under the others. -/
theorem before_of_forest (hf : g.Forest roots) (hc : c ∈ traverse g [] roots) {l₁ l₂ : List α}
    (hnext : g.next c = l₁ ++ l₂)
    (hs : ∃ x ∈ l₁, Relation.ReflTransGen (fun a b => b ∈ g.next a) x s)
    (ht : ∃ y ∈ l₂, Relation.ReflTransGen (fun a b => b ∈ g.next a) y t)
    (ht' : ¬ ∃ x ∈ l₁, Relation.ReflTransGen (fun a b => b ∈ g.next a) x t) :
    ∃ first, first <+: traverse g [] roots ∧ s ∈ first ∧ t ∉ first := by
  obtain ⟨before, rest, hnew, hgrown, heq⟩ := exists_entry (Grown.start g roots)
    (fun _ _ _ h hp => h.skip hp) (fun _ _ _ h _ => h.enter) hc List.not_mem_nil
  -- everything under `c` is entered after `c`
  have hunder : ∀ x ∈ g.next c, ∀ y, Relation.ReflTransGen (fun a b => b ∈ g.next a) x y →
      y ∉ before ++ [c] := by
    intro x hx y hxy hy
    rcases List.mem_append.mp hy with hy | hy
    · exact hnew (hgrown.climb hf (.head hx hxy) hy)
    · rw [List.mem_singleton.mp hy] at hxy
      exact hf.acyclic c (Relation.TransGen.head'_iff.mpr ⟨x, hx, hxy⟩)
  rw [hnext, List.append_assoc, traverse_append] at heq
  refine ⟨traverse g (before ++ [c]) l₁, heq ▸ prefix_traverse g _ _, ?_, ?_⟩
  · obtain ⟨x, hx, hxs⟩ := hs
    have hxc : x ∈ g.next c := hnext ▸ List.mem_append_left _ hx
    have hclosed : ClosedUpTo g (l₂ ++ rest) (traverse g (before ++ [c]) l₁) [] := by
      refine ClosedUpTo.traverse fun v hv q hq => ?_
      have := hgrown.enter.closed v hv q hq
      rw [hnext] at this
      simp only [List.mem_append, List.not_mem_nil, or_false] at this ⊢
      tauto
    induction hxs with
    | refl => exact mem_traverse (.inr hx)
    | tail hxb hbz ih =>
      rcases hclosed _ ih _ hbz with h | h | h
      · exact h
      · cases h
      · rcases List.mem_append.mp h with h | h
        · -- it would also come next to `c`, so `c` would be under itself
          have hcb := hf.unique _ _ _ (hnext ▸ List.mem_append_right l₁ h) hbz
          rw [← hcb] at hxb
          exact absurd (Relation.TransGen.head'_iff.mpr ⟨x, hxc, hxb⟩) (hf.acyclic c)
        · -- it was pending before `c` was entered, so what it is under was marked before `c`
          rcases hgrown.pending _ (List.mem_cons_of_mem c h) with hroot | ⟨u, hu, hzu⟩
          · exact absurd hbz (hf.root _ hroot _)
          · rw [hf.unique _ _ _ hzu hbz] at hu
            exact absurd (List.mem_append_left _ hu) (hunder x hxc _ hxb)
  · intro hmem
    obtain ⟨y, hy, hyt⟩ := ht
    rcases reached_of_mem_traverse hmem with hmem | hreach
    · exact hunder y (hnext ▸ List.mem_append_right _ hy) t hyt hmem
    · exact ht' hreach

end Sirius.Common
