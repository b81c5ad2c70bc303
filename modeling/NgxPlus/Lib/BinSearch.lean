import Mathlib.Order.Defs.LinearOrder

/-!
# Binary search over a three-way probe

The loop `while (high >= low) { midle = (high + low) / 2; ... }` with signed bounds, as
C code writes it: `high` may become `-1`. What is searched is only seen through
`probe i`, the position of the target relative to element `i` (`lt`: left of it), so
number arrays and interval tables are the same search.

`Sorted n probe` is the sortedness the loop relies on. Under it, `search_isSome_iff`:
the loop, given fuel for `n` halvings at most, finds an index exactly when one exists.

Where only the starts are sorted, so that the target is left of the elements from `k` on and
of no other, the loop is a bisection towards `k`: it finds what `path k` meets
(`search_isSome_iff_path`) and may miss the rest.
-/

namespace BinSearch

/-- `fuel` bounds the number of iterations; the loop shrinks `high - low` every time. -/
def search (probe : Nat → Ordering) : Nat → Int → Int → Option Nat
  | 0, _, _ => none
  | fuel + 1, low, high =>
    if high < low then none
    else
      let midle := (high + low) / 2
      match probe midle.toNat with
      | .eq => some midle.toNat
      | .lt => search probe fuel low (midle - 1)
      | .gt => search probe fuel (midle + 1) high

/-- Left of an element means left of every later one; right of it, right of every earlier. -/
structure Sorted (n : Nat) (probe : Nat → Ordering) : Prop where
  lt_up : ∀ i j, i ≤ j → j < n → probe i = .lt → probe j = .lt
  gt_down : ∀ i j, i ≤ j → j < n → probe j = .gt → probe i = .gt

variable {probe : Nat → Ordering} {n : Nat}

theorem search_sound {fuel : Nat} {low high : Int} {i : Nat} (h0 : 0 ≤ low)
    (h : search probe fuel low high = some i) :
    probe i = .eq ∧ low ≤ (i : Int) ∧ (i : Int) ≤ high := by
  induction fuel generalizing low high with
  | zero => simp [search] at h
  | succ fuel ih =>
    simp only [search] at h
    split at h
    · cases h
    · rename_i hlt
      split at h
      · rename_i hp
        cases h
        exact ⟨hp, by omega, by omega⟩
      · obtain ⟨hp, h1, h2⟩ := ih h0 h
        exact ⟨hp, h1, by omega⟩
      · obtain ⟨hp, h1, h2⟩ := ih (by omega) h
        exact ⟨hp, by omega, h2⟩

/-- The window keeps every index that could still answer `eq`. -/
theorem search_complete (hm : Sorted n probe) {fuel : Nat} {low high : Int} {k : Nat}
    (h0 : 0 ≤ low) (hn : high < n) (hf : high - low < fuel) (hk1 : low ≤ (k : Int))
    (hk2 : (k : Int) ≤ high) (hk : probe k = .eq) : (search probe fuel low high).isSome := by
  induction fuel generalizing low high with
  | zero => exfalso; omega
  | succ fuel ih =>
    simp only [search]
    rw [if_neg (by omega)]
    split
    · rfl
    · rename_i hp
      have hlt : ¬ ((high + low) / 2).toNat ≤ k := fun hle => by
        have := hm.lt_up _ k hle (by omega) hp
        rw [hk] at this; cases this
      exact ih h0 (by omega) (by omega) hk1 (by omega)
    · rename_i hp
      have hgt : ¬ k ≤ ((high + low) / 2).toNat := fun hle => by
        have := hm.gt_down k _ hle (by omega) hp
        rw [hk] at this; cases this
      exact ih (by omega) hn (by omega) (by omega) hk2

theorem search_isSome_iff (hm : Sorted n probe) :
    (search probe n 0 ((n : Int) - 1)).isSome ↔ ∃ k < n, probe k = .eq := by
  constructor
  · intro h
    obtain ⟨i, hi⟩ := Option.isSome_iff_exists.mp h
    obtain ⟨hp, -, h2⟩ := search_sound (Int.le_refl 0) hi
    exact ⟨i, by omega, hp⟩
  · rintro ⟨k, hk, hp⟩
    exact search_complete hm (Int.le_refl 0) (by omega) (by omega) (by omega) (by omega) hp

/-! ## What the loop looks at -/

/-- The indices that are probed. -/
def visits (probe : Nat → Ordering) : Nat → Int → Int → List Nat
  | 0, _, _ => []
  | fuel + 1, low, high =>
    if high < low then []
    else
      let midle := (high + low) / 2
      midle.toNat :: match probe midle.toNat with
        | .eq => []
        | .lt => visits probe fuel low (midle - 1)
        | .gt => visits probe fuel (midle + 1) high

/-- The indices below `k` that a bisection towards `k` comes by. -/
def path (k : Nat) : Nat → Int → Int → List Nat
  | 0, _, _ => []
  | fuel + 1, low, high =>
    if high < low then []
    else
      let midle := (high + low) / 2
      if midle.toNat < k then midle.toNat :: path k fuel (midle + 1) high
      else path k fuel low (midle - 1)

theorem mem_visits {fuel : Nat} {low high : Int} {i : Nat} (h0 : 0 ≤ low) (h : i ∈ visits probe fuel low high) :
    low ≤ (i : Int) ∧ (i : Int) ≤ high := by
  induction fuel generalizing low high with
  | zero => simp [visits] at h
  | succ fuel ih =>
    simp only [visits] at h
    split at h
    · simp at h
    · rename_i hlt
      rcases List.mem_cons.1 h with rfl | h
      · omega
      · split at h
        · simp at h
        · obtain ⟨h1, h2⟩ := ih h0 h
          exact ⟨h1, by omega⟩
        · obtain ⟨h1, h2⟩ := ih (by omega) h
          exact ⟨by omega, h2⟩

theorem mem_path {k fuel : Nat} {low high : Int} {i : Nat} (h0 : 0 ≤ low) (h : i ∈ path k fuel low high) :
    i < k ∧ low ≤ (i : Int) ∧ (i : Int) ≤ high := by
  induction fuel generalizing low high with
  | zero => simp [path] at h
  | succ fuel ih =>
    simp only [path] at h
    split at h
    · simp at h
    · split at h
      · rename_i hlt
        rcases List.mem_cons.1 h with rfl | h
        · exact ⟨hlt, by omega, by omega⟩
        · obtain ⟨hk, h1, h2⟩ := ih (by omega) h
          exact ⟨hk, by omega, h2⟩
      · obtain ⟨hk, h1, h2⟩ := ih h0 h
        exact ⟨hk, h1, by omega⟩

theorem search_isSome_iff_path {k fuel : Nat} {low high : Int} (h0 : 0 ≤ low)
    (hk : ∀ i : Nat, (i : Int) ≤ high → (probe i = .lt ↔ k ≤ i)) :
    (search probe fuel low high).isSome ↔ ∃ i ∈ path k fuel low high, probe i = .eq := by
  induction fuel generalizing low high with
  | zero => simp [search, path]
  | succ fuel ih =>
    simp only [search, path]
    split
    · simp
    · have hmid := hk ((high + low) / 2).toNat (by omega)
      cases hp : probe ((high + low) / 2).toNat with
      | eq =>
        have hlt : ((high + low) / 2).toNat < k := by simpa [hp] using hmid
        simp only [hlt, if_true]
        exact ⟨fun _ => ⟨_, List.mem_cons_self, hp⟩, fun _ => rfl⟩
      | lt =>
        have hlt : ¬ ((high + low) / 2).toNat < k := by simpa [hp] using hmid
        simp only [hlt, if_false]
        exact ih h0 fun i hi => hk i (by omega)
      | gt =>
        have hlt : ((high + low) / 2).toNat < k := by simpa [hp] using hmid
        simp only [hlt, if_true]
        rw [ih (by omega) hk]
        constructor
        · rintro ⟨i, hi, he⟩
          exact ⟨i, List.mem_cons_of_mem _ hi, he⟩
        · rintro ⟨i, hi, he⟩
          rcases List.mem_cons.1 hi with rfl | hi
          · rw [hp] at he
            cases he
          · exact ⟨i, hi, he⟩

/-- The bisection ends at the last index before `k`. -/
theorem pred_mem_path {k fuel : Nat} {low high : Int} (h0 : 0 ≤ low) (hf : high - low < fuel) (h1 : low < k)
    (h2 : (k : Int) ≤ high + 1) : k - 1 ∈ path k fuel low high := by
  induction fuel generalizing low high with
  | zero => omega
  | succ fuel ih =>
    simp only [path]
    rw [if_neg (by omega)]
    split
    · rename_i hlt
      rcases Nat.lt_or_eq_of_le (Nat.succ_le_of_lt hlt) with h | h
      · exact List.mem_cons_of_mem _ (ih (by omega) (by omega) (by omega) h2)
      · have he : k - 1 = ((high + low) / 2).toNat := by omega
        rw [he]
        exact List.mem_cons_self
    · exact ih h0 (by omega) h1 (by omega)

end BinSearch
