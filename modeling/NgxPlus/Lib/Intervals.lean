import Mathlib.Data.Nat.ModEq
import Mathlib.Data.List.Nodup

/-!
# Consecutive intervals, and numbers in a window

`Consecutive a l b`: the list `l` cuts what lies between `a` and `b` into pieces that are not
empty, each from where the one before it ends.

A ring of `n` slots keeps what has the same remainder in the same place: `mod_ne_of_window` says
that this happens to no two numbers less than `n` apart, `slot_disjoint` the same of the bytes
of two slots.
-/

namespace Intervals

def Consecutive : Nat → List (Nat × Nat) → Nat → Prop
  | a, [], b => a = b
  | a, (x, y) :: l, b => x = a ∧ a < y ∧ Consecutive y l b

theorem consecutive_append {a c : Nat} {l m : List (Nat × Nat)} :
    Consecutive a (l ++ m) c ↔ ∃ b, Consecutive a l b ∧ Consecutive b m c := by
  induction l generalizing a with
  | nil => simp [Consecutive]
  | cons p l ih =>
    obtain ⟨x, y⟩ := p
    simp only [List.cons_append, Consecutive, ih]
    constructor
    · rintro ⟨hx, hy, b, hl, hm⟩
      exact ⟨b, ⟨hx, hy, hl⟩, hm⟩
    · rintro ⟨b, ⟨hx, hy, hl⟩, hm⟩
      exact ⟨hx, hy, b, hl, hm⟩

theorem Consecutive.le {a b : Nat} {l : List (Nat × Nat)} (h : Consecutive a l b) : a ≤ b := by
  induction l generalizing a with
  | nil => exact le_of_eq h
  | cons p l ih => exact le_trans h.2.1.le (ih h.2.2)

theorem Consecutive.mem {a b x y : Nat} {l : List (Nat × Nat)} (h : Consecutive a l b) (hmem : (x, y) ∈ l) :
    a ≤ x ∧ x < y ∧ y ≤ b := by
  induction l generalizing a with
  | nil => simp at hmem
  | cons p l ih =>
    obtain ⟨u, v⟩ := p
    obtain ⟨rfl, huv, hl⟩ := h
    rcases List.mem_cons.1 hmem with heq | hmem
    · obtain ⟨rfl, rfl⟩ := Prod.mk.inj heq
      exact ⟨le_rfl, huv, hl.le⟩
    · obtain ⟨hle, hlt, hb⟩ := ih hl hmem
      exact ⟨by omega, hlt, hb⟩

/-- The piece that starts at the front is the first one. -/
theorem Consecutive.head {a b y : Nat} {l : List (Nat × Nat)} (h : Consecutive a l b) (hmem : (a, y) ∈ l) :
    ∃ l', l = (a, y) :: l' ∧ Consecutive y l' b := by
  cases l with
  | nil => simp at hmem
  | cons p l =>
    obtain ⟨u, v⟩ := p
    obtain ⟨rfl, huv, hl⟩ := h
    rcases List.mem_cons.1 hmem with heq | hmem
    · obtain ⟨-, rfl⟩ := Prod.mk.inj heq
      exact ⟨l, rfl, hl⟩
    · have := (hl.mem hmem).1
      omega

/-! ## Windows -/

theorem mod_ne_of_window {n s t : Nat} (h : t < s) (hn : s < t + n) : t % n ≠ s % n := by
  intro heq
  have hdvd : n ∣ s - t := (Nat.modEq_iff_dvd' h.le).1 heq
  have := Nat.le_of_dvd (by omega) hdvd
  omega

theorem slot_disjoint {size a b i j : Nat} (hab : a ≠ b) (hi : i < size) (hj : j < size) :
    a * size + i ≠ b * size + j := by
  intro heq
  rcases Nat.lt_or_gt_of_ne hab with h | h
  · have := Nat.mul_le_mul_right size (Nat.succ_le_of_lt h)
    rw [Nat.succ_mul] at this
    omega
  · have := Nat.mul_le_mul_right size (Nat.succ_le_of_lt h)
    rw [Nat.succ_mul] at this
    omega

end Intervals
