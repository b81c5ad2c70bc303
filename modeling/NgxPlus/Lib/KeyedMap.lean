import Mathlib.Logic.Function.Basic

/-!
# Tables kept under keys

A table `A : α → Option β` in a store `T : κ → Option β`, where a name `a` of the table is written
as `key a`. Two names may be written alike; `Keeps` says that no two names in the table are, and
that the store holds the table and nothing else.

`Keeps.set` and `Keeps.erase` are the two changes, for a name whose key no other name in the table
has (`Free`).
-/

namespace KeyedMap

variable {α κ β : Type} {key : α → κ} {A : α → Option β} {T : κ → Option β} {a : α}

structure Keeps (key : α → κ) (A : α → Option β) (T : κ → Option β) : Prop where
  distinct : ∀ x y, A x ≠ none → A y ≠ none → key x = key y → x = y
  get : ∀ k b, T k = some b ↔ ∃ x, A x = some b ∧ key x = k

/-- No other name of the table has the key of `a`. -/
def Free (key : α → κ) (A : α → Option β) (a : α) : Prop := ∀ x, x ≠ a → key x = key a → A x = none

theorem Keeps.empty : Keeps key (fun _ => none) (fun _ => (none : Option β)) := by
  refine ⟨fun _ _ h => absurd rfl h, fun k b => ?_⟩
  simp

theorem Keeps.free (h : Keeps key A T) (ha : A a ≠ none) : Free key A a := by
  intro x hx hk
  by_contra hne
  exact hx (h.distinct x a hne ha hk)

theorem Keeps.get_of_some (h : Keeps key A T) {b : β} (ha : A a = some b) : T (key a) = some b :=
  (h.get _ _).2 ⟨a, ha, rfl⟩

theorem ne_of_free (hf : Free key A a) {x : α} (hx : x ≠ a) {b : β} (hb : A x = some b) : key x ≠ key a := by
  intro hk
  rw [hf x hx hk] at hb
  cases hb

variable [DecidableEq α] [DecidableEq κ]

/-- A change under the key of `a` is a change of `a` in the table. -/
theorem Keeps.get_update (h : Keeps key A T) (hf : Free key A a) (v : Option β) (k : κ) (b : β) :
    Function.update T (key a) v k = some b ↔ ∃ x, Function.update A a v x = some b ∧ key x = k := by
  constructor
  · intro hb
    by_cases hk : k = key a
    · subst hk
      rw [Function.update_self] at hb
      exact ⟨a, by rw [Function.update_self, hb], rfl⟩
    · rw [Function.update_of_ne hk] at hb
      obtain ⟨x, hx, hxk⟩ := (h.get k b).1 hb
      have hxa : x ≠ a := fun he => hk (by rw [← hxk, he])
      exact ⟨x, by rw [Function.update_of_ne hxa, hx], hxk⟩
  · rintro ⟨x, hx, rfl⟩
    by_cases hxa : x = a
    · subst hxa
      rw [Function.update_self] at hx ⊢
      exact hx
    · rw [Function.update_of_ne hxa] at hx
      rw [Function.update_of_ne (ne_of_free hf hxa hx)]
      exact h.get_of_some hx

theorem Keeps.set (h : Keeps key A T) (hf : Free key A a) (b : β) :
    Keeps key (Function.update A a (some b)) (Function.update T (key a) (some b)) := by
  refine ⟨?_, h.get_update hf (some b)⟩
  intro x y hx hy hk
  by_cases hxa : x = a
  · by_cases hya : y = a
    · rw [hxa, hya]
    · rw [Function.update_of_ne hya] at hy
      exact absurd (hf y hya (by rw [← hk, hxa])) hy
  · rw [Function.update_of_ne hxa] at hx
    by_cases hya : y = a
    · exact absurd (hf x hxa (by rw [hk, hya])) hx
    · rw [Function.update_of_ne hya] at hy
      exact h.distinct x y hx hy hk

omit [DecidableEq κ] in
theorem ne_none_of_erase {x : α} (h : Function.update A a none x ≠ none) : A x ≠ none := by
  by_cases hxa : x = a
  · rw [hxa, Function.update_self] at h
    exact absurd rfl h
  · rwa [Function.update_of_ne hxa] at h

theorem Keeps.erase (h : Keeps key A T) (hf : Free key A a) :
    Keeps key (Function.update A a none) (Function.update T (key a) none) := by
  refine ⟨?_, h.get_update hf none⟩
  intro x y hx hy
  exact h.distinct x y (ne_none_of_erase hx) (ne_none_of_erase hy)

end KeyedMap
