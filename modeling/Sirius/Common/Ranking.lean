import Mathlib

/-!
# Ranks of a finite graph

A relation whose elements have finitely many ancestors has no cycle exactly when its
elements can be ranked so that every edge goes up.

* `acyclic_iff_ranked`: the two ways to say it.
* `Acyclic.wellFounded`: the edges can be followed back only finitely often.
-/

namespace Sirius.Common

variable {α : Type*} {R : α → α → Prop}

/-- No element is its own ancestor. -/
def Acyclic (R : α → α → Prop) : Prop := ∀ a, ¬Relation.TransGen R a a

/-- Every edge goes from a lower to a higher rank. -/
def Ranks (rank : α → ℕ) (R : α → α → Prop) : Prop := ∀ a b, R a b → rank a < rank b

theorem Ranks.transGen {rank : α → ℕ} (h : Ranks rank R) {a b : α}
    (hab : Relation.TransGen R a b) : rank a < rank b := by
  induction hab with
  | single hab => exact h _ _ hab
  | tail _ hbc ih => exact ih.trans (h _ _ hbc)

theorem Ranks.acyclic {rank : α → ℕ} (h : Ranks rank R) : Acyclic R :=
  fun _ ha => lt_irrefl _ (h.transGen ha)

theorem acyclic_iff_ranked (hfinite : ∀ a, {b | Relation.TransGen R b a}.Finite) :
    Acyclic R ↔ ∃ rank, Ranks rank R := by
  constructor
  · intro hacyclic
    -- the rank of an element is the number of its ancestors
    refine ⟨fun a => {b | Relation.TransGen R b a}.ncard, fun a b hab => ?_⟩
    refine Set.ncard_lt_ncard ⟨fun c hc => ?_, fun hsub => ?_⟩ (hfinite b)
    · exact Relation.TransGen.tail hc hab
    · have hself : Relation.TransGen R a a := hsub (Relation.TransGen.single hab)
      exact hacyclic a hself
  · rintro ⟨rank, hrank⟩
    exact hrank.acyclic

/-- Where every edge starts inside a finite set, ancestors are finitely many. -/
theorem finite_ancestors {s : Set α} (hs : s.Finite) (h : ∀ a b, R a b → a ∈ s) (b : α) :
    {a | Relation.TransGen R a b}.Finite := by
  refine hs.subset fun a ha => ?_
  obtain ⟨c, hac, -⟩ := Relation.TransGen.head'_iff.mp ha
  exact h a c hac

/-- Where every edge starts inside a finite set, a relation without a cycle is well-founded. -/
theorem Acyclic.wellFounded {s : Set α} (hacyclic : Acyclic R) (hs : s.Finite)
    (h : ∀ a b, R a b → a ∈ s) : WellFounded R := by
  obtain ⟨rank, hrank⟩ := (acyclic_iff_ranked (finite_ancestors hs h)).mp hacyclic
  exact Subrelation.wf (fun {a b} hab => hrank a b hab) (measure rank).wf

end Sirius.Common
