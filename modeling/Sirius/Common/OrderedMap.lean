import Sirius.Common.Assoc

/-!
# Maps in key order

A `std::map` is the list of its entries in key order. `upsert m k d f` is `f` applied to `m[k]` in
place, where an absent entry starts as `d`.

* `upsert_sorted`: the entries stay in key order.
* `lookup_upsert`: what is found after the change.
-/

namespace Sirius.Common

variable {α β : Type*} [LinearOrder α] {m : List (α × β)}

/-- `f(m[k])`, with the default `d`. -/
def upsert (m : List (α × β)) (k : α) (d : β) (f : β → β) : List (α × β) :=
  match m with
  | [] => [(k, f d)]
  | (a, b) :: m =>
    if k < a then (k, f d) :: (a, b) :: m
    else if k = a then (a, f b) :: m
    else (a, b) :: upsert m k d f

/-- The entries stand in key order. -/
def Ascending (m : List (α × β)) : Prop := (m.map Prod.fst).Pairwise (· < ·)

theorem ascending_nil : Ascending ([] : List (α × β)) := List.Pairwise.nil

theorem ascending_cons {a : α} {b : β} :
    Ascending ((a, b) :: m) ↔ (∀ k ∈ m.map Prod.fst, a < k) ∧ Ascending m := by
  unfold Ascending
  rw [List.map_cons, List.pairwise_cons]

theorem Ascending.nodup (h : Ascending m) : (m.map Prod.fst).Nodup := h.imp ne_of_lt

theorem mem_keys_upsert (m : List (α × β)) (k : α) (d : β) (f : β → β) (x : α) :
    x ∈ (upsert m k d f).map Prod.fst ↔ x = k ∨ x ∈ m.map Prod.fst := by
  induction m with
  | nil => simp [upsert]
  | cons p m ih =>
    obtain ⟨a, b⟩ := p
    unfold upsert
    split_ifs with hlt heq
    · simp
    · simp [heq]
    · rw [List.map_cons, List.mem_cons, ih, List.map_cons, List.mem_cons]
      exact or_left_comm

theorem upsert_sorted (h : Ascending m) (k : α) (d : β) (f : β → β) :
    Ascending (upsert m k d f) := by
  induction m with
  | nil => simp [upsert, Ascending]
  | cons p m ih =>
    obtain ⟨a, b⟩ := p
    obtain ⟨hfirst, hrest⟩ := ascending_cons.mp h
    unfold upsert
    split_ifs with hlt heq
    · refine ascending_cons.mpr ⟨fun x hx => ?_, h⟩
      rcases List.mem_cons.mp hx with rfl | hx
      · exact hlt
      · exact hlt.trans (hfirst x hx)
    · exact ascending_cons.mpr ⟨hfirst, hrest⟩
    · refine ascending_cons.mpr ⟨fun x hx => ?_, ih hrest⟩
      rcases (mem_keys_upsert m k d f x).mp hx with rfl | hx
      · exact lt_of_le_of_ne (not_lt.mp hlt) (Ne.symm heq)
      · exact hfirst x hx

/-- What is found after a change: the changed entry, and everything else as before. -/
theorem lookup_upsert [BEq α] [LawfulBEq α] (h : Ascending m) (k : α) (d : β) (f : β → β) (x : α) :
    (upsert m k d f).lookup x = if x = k then some (f ((m.lookup k).getD d)) else m.lookup x := by
  induction m with
  | nil =>
    by_cases hx : x = k
    · simp [upsert, hx]
    · simp [upsert, List.lookup_cons, beq_false_of_ne hx, hx]
  | cons p m ih =>
    obtain ⟨a, b⟩ := p
    obtain ⟨hfirst, hrest⟩ := ascending_cons.mp h
    unfold upsert
    split_ifs with hlt hx heq hx hx
    · -- the key is new
      have hnew : ((a, b) :: m).lookup k = none := by
        rw [List.lookup_eq_none_iff]
        intro q hq
        rcases List.mem_cons.mp hq with rfl | hq
        · simpa using hlt.ne
        · simpa using (hlt.trans (hfirst q.1 (List.mem_map_of_mem hq))).ne
      simp [hx, hnew]
    · rw [List.lookup_cons, beq_false_of_ne hx]
    · simp [hx, heq]
    · subst heq
      rw [List.lookup_cons, List.lookup_cons, beq_false_of_ne hx]
    · subst hx
      rw [List.lookup_cons, List.lookup_cons, beq_false_of_ne heq]
      simp [ih hrest]
    · rw [List.lookup_cons, List.lookup_cons]
      cases x == a with
      | true => rfl
      | false => simp [ih hrest, hx]

end Sirius.Common
