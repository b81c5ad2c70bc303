import Mathlib.Data.List.Sort
import Mathlib.Data.Set.Defs

/-!
# Points on a ring

Points have a place `f a` in a linear order that is closed to a ring. `IsOwner f x s a`: going
up from `x`, with the step from the top to the bottom, `a` is the first point of `s`. An owner
stays one when other points are taken away (`IsOwner.subset`), and its place is the only one
(`IsOwner.place_eq`), which is all of consistent hashing. On a sorted list the owner is found by
`owner`.
-/

namespace HashRing

variable {α β : Type} [LinearOrder β] {f : α → β} {x : β} {s t : Set α} {a b : α} {l : List α}

def IsFirst (f : α → β) (s : Set α) (a : α) : Prop := a ∈ s ∧ ∀ b ∈ s, f a ≤ f b

def IsOwner (f : α → β) (x : β) (s : Set α) (a : α) : Prop :=
  IsFirst f {b | b ∈ s ∧ x ≤ f b} a ∨ (∀ b ∈ s, f b < x) ∧ IsFirst f s a

theorem IsFirst.place_eq (ha : IsFirst f s a) (hb : IsFirst f s b) : f a = f b :=
  le_antisymm (ha.2 b hb.1) (hb.2 a ha.1)

theorem IsFirst.subset (h : IsFirst f s a) (hts : t ⊆ s) (ha : a ∈ t) : IsFirst f t a :=
  ⟨ha, fun b hb => h.2 b (hts hb)⟩

theorem IsOwner.mem (h : IsOwner f x s a) : a ∈ s := by
  rcases h with h | ⟨-, h⟩
  · exact h.1.1
  · exact h.1

theorem IsOwner.place_eq (ha : IsOwner f x s a) (hb : IsOwner f x s b) : f a = f b := by
  rcases ha with ha | ⟨hlt, ha⟩ <;> rcases hb with hb | ⟨hlt', hb⟩
  · exact ha.place_eq hb
  · exact absurd ha.1.2 (not_le.2 (hlt' a ha.1.1))
  · exact absurd hb.1.2 (not_le.2 (hlt b hb.1.1))
  · exact ha.place_eq hb

/-- Other points may go. -/
theorem IsOwner.subset (h : IsOwner f x s a) (hts : t ⊆ s) (ha : a ∈ t) : IsOwner f x t a := by
  rcases h with h | ⟨hlt, h⟩
  · exact Or.inl (h.subset (fun b hb => ⟨hts hb.1, hb.2⟩) ⟨ha, h.1.2⟩)
  · exact Or.inr ⟨fun b hb => hlt b (hts hb), h.subset hts ha⟩

/-! ## Sorted lists -/

def owner (f : α → β) (x : β) (l : List α) : Option α := (l.find? fun a => x ≤ f a).or l.head?

theorem isFirst_head (hs : l.Pairwise fun a b => f a ≤ f b) (h : l.head? = some a) : IsFirst f {b | b ∈ l} a := by
  obtain ⟨l, rfl⟩ := List.head?_eq_some_iff.1 h
  refine ⟨List.mem_cons_self, fun b hb => ?_⟩
  rcases List.mem_cons.1 hb with rfl | hb
  · exact le_rfl
  · exact (List.pairwise_cons.1 hs).1 b hb

theorem isOwner_owner (hs : l.Pairwise fun a b => f a ≤ f b) (h : owner f x l = some a) :
    IsOwner f x {b | b ∈ l} a := by
  cases hf : l.find? (fun a => x ≤ f a) with
  | some c =>
    rw [owner, hf] at h
    obtain rfl := Option.some.inj h
    obtain ⟨hx, as, bs, rfl, has⟩ := List.find?_eq_some_iff_append.1 hf
    refine Or.inl ⟨⟨by simp, by simpa using hx⟩, fun b hb => ?_⟩
    obtain ⟨hb, hxb⟩ := hb
    rcases List.mem_append.1 hb with hb | hb
    · have := has b hb
      simp only [Bool.not_eq_true', decide_eq_false_iff_not] at this
      exact absurd hxb this
    · rcases List.mem_cons.1 hb with rfl | hb
      · exact le_rfl
      · exact (List.pairwise_cons.1 (List.pairwise_append.1 hs).2.1).1 b hb
  | none =>
    rw [owner, hf] at h
    refine Or.inr ⟨fun b hb => ?_, isFirst_head hs h⟩
    have := List.find?_eq_none.1 hf b hb
    simpa using this

theorem exists_owner (hl : l ≠ []) : ∃ a, owner f x l = some a := by
  obtain ⟨a, l, rfl⟩ := List.exists_cons_of_ne_nil hl
  rw [owner]
  cases List.find? (fun a => decide (x ≤ f a)) (a :: l) with
  | none => exact ⟨a, rfl⟩
  | some c => exact ⟨c, rfl⟩

/-- An element at or behind `x` with a neighbour before `x`. -/
theorem owner_of_getElem (hs : l.Pairwise fun a b => f a ≤ f b) {i : Nat} (ha : l[i + 1]? = some a) (hb : l[i]? = some b)
    (hbx : f b < x) (hax : x ≤ f a) : owner f x l = some a := by
  obtain ⟨hi, rfl⟩ := List.getElem?_eq_some_iff.1 ha
  obtain ⟨hi', rfl⟩ := List.getElem?_eq_some_iff.1 hb
  have hfind : l.find? (fun a => x ≤ f a) = some l[i + 1] := by
    rw [List.find?_eq_some_iff_getElem]
    refine ⟨by simpa using hax, i + 1, hi, rfl, fun j hj => ?_⟩
    have hle : f l[j] ≤ f l[i] := by
      rcases Nat.lt_or_eq_of_le (Nat.le_of_lt_succ hj) with hj | rfl
      · exact List.pairwise_iff_getElem.1 hs j i (by omega) hi' hj
      · exact le_rfl
    simpa using lt_of_le_of_lt hle hbx
  rw [owner, hfind]
  rfl

theorem owner_of_le_head (h : l.head? = some a) (hx : x ≤ f a) : owner f x l = some a := by
  obtain ⟨l, rfl⟩ := List.head?_eq_some_iff.1 h
  rw [owner, List.find?_cons_of_pos (by simpa using hx)]
  rfl

theorem owner_of_lt_getLast (hs : l.Pairwise fun a b => f a ≤ f b) (h : l.getLast? = some a) (hx : f a < x) :
    owner f x l = l.head? := by
  have hnone : l.find? (fun a => x ≤ f a) = none := by
    obtain ⟨l, rfl⟩ := List.getLast?_eq_some_iff.1 h
    refine List.find?_eq_none.2 fun b hb => ?_
    rw [decide_eq_true_eq, not_le]
    rcases List.mem_append.1 hb with hb | hb
    · exact lt_of_le_of_lt ((List.pairwise_append.1 hs).2.2 b hb a List.mem_cons_self) hx
    · rwa [List.mem_singleton.1 hb]
  rw [owner, hnone]
  rfl

end HashRing
