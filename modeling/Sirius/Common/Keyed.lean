import Mathlib

/-!
# Lists ordered by a key

An ordered container (a set, a map, the buckets of an index) is a list with strictly increasing
keys, `SortedBy key`. Each operation at a key `k` is computed on the list cut at `k`:

* `Around key k l₁ l₂`: `k` lies between the keys of `l₁` and those of `l₂`.
* `SortedBy.cut`: an ordered list is `l₁ ++ l₂` or `l₁ ++ x :: l₂` around any key.
* `seek`, `emplace`, `change`, `dropKey`: the operations, each with its value on a cut list.
* `place`: stable insertion into a list whose keys may repeat.
* `filter_ne_mid`: what is left of a list without repetitions when one element is removed.
-/

namespace Sirius.Common

variable {α β κ : Type*} [LinearOrder κ]

/-! ## Cutting a list at a key -/

/-- Strictly increasing keys. -/
def SortedBy (key : α → κ) (l : List α) : Prop := l.Pairwise fun a b => key a < key b

/-- The key `k` lies between `l₁` and `l₂`. -/
structure Around (key : α → κ) (k : κ) (l₁ l₂ : List α) : Prop where
  before : ∀ a ∈ l₁, key a < k
  after : ∀ a ∈ l₂, k < key a

variable {key : α → κ} {k : κ} {l l₁ l₂ : List α} {x y : α}

theorem SortedBy.cut (h : SortedBy key l) (k : κ) : ∃ l₁ l₂, Around key k l₁ l₂ ∧
    (l = l₁ ++ l₂ ∨ ∃ x, key x = k ∧ l = l₁ ++ x :: l₂) := by
  induction l with
  | nil => exact ⟨[], [], ⟨by simp, by simp⟩, .inl rfl⟩
  | cons y ys ih =>
    obtain ⟨hy, hys⟩ := List.pairwise_cons.mp h
    rcases lt_trichotomy (key y) k with hlt | heq | hgt
    · obtain ⟨l₁, l₂, haround, hl⟩ := ih hys
      refine ⟨y :: l₁, l₂, ⟨?_, haround.after⟩, ?_⟩
      · exact List.forall_mem_cons.mpr ⟨hlt, haround.before⟩
      · rcases hl with rfl | ⟨x, hx, rfl⟩
        · exact .inl rfl
        · exact .inr ⟨x, hx, rfl⟩
    · refine ⟨[], ys, ⟨by simp, ?_⟩, .inr ⟨y, heq, rfl⟩⟩
      exact fun a ha => heq ▸ hy a ha
    · refine ⟨[], y :: ys, ⟨by simp, ?_⟩, .inl rfl⟩
      exact List.forall_mem_cons.mpr ⟨hgt, fun a ha => hgt.trans (hy a ha)⟩

/-- An element cuts its list. -/
theorem SortedBy.cut_mem (h : SortedBy key l) (hx : x ∈ l) :
    ∃ l₁ l₂, Around key (key x) l₁ l₂ ∧ l = l₁ ++ x :: l₂ := by
  obtain ⟨l₁, l₂, rfl⟩ := List.append_of_mem hx
  obtain ⟨-, hcons, hbefore⟩ := List.pairwise_append.mp h
  refine ⟨l₁, l₂, ⟨fun a ha => hbefore a ha x List.mem_cons_self, ?_⟩, rfl⟩
  exact (List.pairwise_cons.mp hcons).1

theorem SortedBy.gap (h : SortedBy key (l₁ ++ x :: l₂)) : SortedBy key (l₁ ++ l₂) :=
  h.sublist (List.Sublist.append_left (List.sublist_cons_self x l₂) l₁)

theorem Around.sortedBy_mid (h : Around key (key x) l₁ l₂) (hl : SortedBy key (l₁ ++ l₂)) :
    SortedBy key (l₁ ++ x :: l₂) := by
  obtain ⟨h₁, h₂, h₁₂⟩ := List.pairwise_append.mp hl
  refine List.pairwise_append.mpr ⟨h₁, List.pairwise_cons.mpr ⟨h.after, h₂⟩, fun a ha b hb => ?_⟩
  rcases List.mem_cons.mp hb with rfl | hb
  · exact h.before a ha
  · exact h₁₂ a ha b hb

/-- A list whose keys come from those of another is cut with it. -/
theorem Around.flatMap {key' : β → κ} {f : α → List β} (h : Around key k l₁ l₂)
    (hf : ∀ a, ∀ b ∈ f a, key' b = key a) :
    Around key' k (l₁.flatMap f) (l₂.flatMap f) := by
  constructor
  · intro b hb
    obtain ⟨a, ha, hb⟩ := List.mem_flatMap.mp hb
    rw [hf a b hb]
    exact h.before a ha
  · intro b hb
    obtain ⟨a, ha, hb⟩ := List.mem_flatMap.mp hb
    rw [hf a b hb]
    exact h.after a ha

theorem Around.mem_ne (h : Around key k l₁ l₂) {a : α} (ha : a ∈ l₁ ++ l₂) : key a ≠ k := by
  rcases List.mem_append.mp ha with ha | ha
  · exact (h.before a ha).ne
  · exact (h.after a ha).ne'

/-! ## The operations -/

/-- The element with a key. -/
def seek (key : α → κ) (k : κ) (l : List α) : Option α := l.find? fun a => key a = k

/-- Add an element, unless its key is there. -/
def emplace (key : α → κ) (x : α) : List α → List α
  | [] => [x]
  | y :: ys =>
    if key y < key x then y :: emplace key x ys
    else if key y = key x then y :: ys
    else x :: y :: ys

/-- Change the element with a key. -/
def change (key : α → κ) (k : κ) (f : α → α) (l : List α) : List α :=
  l.map fun a => if key a = k then f a else a

/-- Remove the element with a key. -/
def dropKey (key : α → κ) (k : κ) (l : List α) : List α := l.filter fun a => key a ≠ k

namespace Around

theorem seek_gap (h : Around key k l₁ l₂) : seek key k (l₁ ++ l₂) = none :=
  List.find?_eq_none.mpr fun a ha => by simpa using h.mem_ne ha

theorem seek_mid (h : Around key (key x) l₁ l₂) : seek key (key x) (l₁ ++ x :: l₂) = some x := by
  unfold seek
  rw [List.find?_append, List.find?_eq_none.mpr fun a ha => by simpa using (h.before a ha).ne]
  simp

theorem emplace_before (h : ∀ a ∈ l₁, key a < key x) :
    emplace key x (l₁ ++ l) = l₁ ++ emplace key x l := by
  induction l₁ with
  | nil => rfl
  | cons y ys ih =>
    rw [List.cons_append, emplace, if_pos (h y List.mem_cons_self),
      ih fun a ha => h a (List.mem_cons_of_mem _ ha), List.cons_append]

theorem emplace_gap (h : Around key (key x) l₁ l₂) :
    emplace key x (l₁ ++ l₂) = l₁ ++ x :: l₂ := by
  rw [emplace_before h.before]
  cases l₂ with
  | nil => rfl
  | cons y ys =>
    have hy := h.after y List.mem_cons_self
    rw [emplace, if_neg hy.not_gt, if_neg hy.ne']

theorem emplace_mid (h : Around key (key x) l₁ l₂) (hy : key y = key x) :
    emplace key x (l₁ ++ y :: l₂) = l₁ ++ y :: l₂ := by
  rw [emplace_before h.before, emplace, if_neg hy.not_lt, if_pos hy]

theorem change_mid {f : α → α} (h : Around key (key x) l₁ l₂) :
    change key (key x) f (l₁ ++ x :: l₂) = l₁ ++ f x :: l₂ := by
  have hsame : ∀ m : List α, (∀ a ∈ m, key a ≠ key x) →
      m.map (fun a => if key a = key x then f a else a) = m := by
    intro m hm
    exact (List.map_congr_left fun a ha => if_neg (hm a ha)).trans (List.map_id' m)
  unfold change
  rw [List.map_append, List.map_cons, if_pos rfl, hsame l₁ fun a ha => (h.before a ha).ne,
    hsame l₂ fun a ha => (h.after a ha).ne']

theorem dropKey_gap (h : Around key k l₁ l₂) : dropKey key k (l₁ ++ l₂) = l₁ ++ l₂ :=
  List.filter_eq_self.mpr fun a ha => by simpa using h.mem_ne ha

theorem dropKey_mid (h : Around key (key x) l₁ l₂) :
    dropKey key (key x) (l₁ ++ x :: l₂) = l₁ ++ l₂ := by
  have hgap := h.dropKey_gap
  unfold dropKey at hgap ⊢
  rw [List.filter_append] at hgap
  rw [List.filter_append, List.filter_cons_of_neg (by simp), hgap]

end Around

/-! ## Repeated keys -/

/-- Insertion behind the elements with the same key. -/
def place (key : α → κ) (x : α) : List α → List α
  | [] => [x]
  | y :: ys => if key y ≤ key x then y :: place key x ys else x :: y :: ys

/-- **An element is placed behind the smaller and equal keys and before the larger ones.** -/
theorem place_between (h₁ : ∀ y ∈ l₁, key y ≤ key x) (h₂ : ∀ y ∈ l₂, key x < key y) :
    place key x (l₁ ++ l₂) = l₁ ++ x :: l₂ := by
  induction l₁ with
  | nil =>
    cases l₂ with
    | nil => rfl
    | cons y ys => exact if_neg (h₂ y List.mem_cons_self).not_ge
  | cons y ys ih =>
    rw [List.cons_append, place, if_pos (h₁ y List.mem_cons_self),
      ih fun z hz => h₁ z (List.mem_cons_of_mem _ hz), List.cons_append]

theorem map_place {key' : β → κ} {f : α → β} (hf : ∀ a, key' (f a) = key a) :
    (place key x l).map f = place key' (f x) (l.map f) := by
  induction l with
  | nil => rfl
  | cons y ys ih =>
    rw [place, List.map_cons, place, hf, hf, ← ih]
    split_ifs <;> rfl

omit [LinearOrder κ] in
/-- An element cuts a list without repetitions in one way. -/
theorem filter_ne_mid [DecidableEq κ] (h : ((l₁ ++ x :: l₂).map key).Nodup) :
    (l₁ ++ x :: l₂).filter (fun a => key a ≠ key x) = l₁ ++ l₂ := by
  rw [List.map_append, List.map_cons] at h
  obtain ⟨-, h₂, h₁₂⟩ := List.nodup_append.mp h
  rw [List.filter_append, List.filter_cons_of_neg (by simp), List.filter_eq_self.mpr,
    List.filter_eq_self.mpr]
  · intro a ha
    have hne := fun heq : key a = key x =>
      (List.nodup_cons.mp h₂).1 (heq ▸ List.mem_map_of_mem ha)
    simpa using hne
  · intro a ha
    simpa using h₁₂ (key a) (List.mem_map_of_mem ha) (key x) List.mem_cons_self

end Sirius.Common
