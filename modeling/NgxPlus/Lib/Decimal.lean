import Mathlib.Data.List.Infix
import Mathlib.Data.Nat.ModEq

/-!
# Decimal suffixes

`v`'s decimal representation ends in that of an `n` with `k` digits exactly when
`v % 10 ^ k = n` (`toDigits_suffix_iff`). "`k` digits" is `HasDigits k n`; the number 0 has one.
-/

namespace Decimal

/-- `n` is written with `k` decimal digits. -/
def HasDigits (k n : Nat) : Prop := 1 ≤ k ∧ n < 10 ^ k ∧ (k = 1 ∨ 10 ^ (k - 1) ≤ n)

theorem digitChar_inj {a b : Nat} (ha : a < 10) (hb : b < 10) :
    Nat.digitChar a = Nat.digitChar b ↔ a = b := by
  have h : ∀ a < 10, ∀ b < 10, Nat.digitChar a = Nat.digitChar b ↔ a = b := by decide
  exact h a ha b hb

theorem concat_suffix_concat {α : Type} {l₁ l₂ : List α} {a b : α} :
    l₁ ++ [a] <:+ l₂ ++ [b] ↔ l₁ <:+ l₂ ∧ a = b := by
  rw [← List.reverse_prefix, ← List.reverse_prefix]
  simp [and_comm]

theorem toDigits_split (v : Nat) :
    ∃ l, Nat.toDigits 10 v = l ++ [Nat.digitChar (v % 10)] ∧
      (10 ≤ v → l = Nat.toDigits 10 (v / 10)) ∧ (v < 10 → l = []) := by
  rw [Nat.toDigits_eq_if (by decide)]
  split
  · rename_i h
    exact ⟨[], by rw [Nat.mod_eq_of_lt h]; rfl, fun h' => by omega, fun _ => rfl⟩
  · rename_i h
    exact ⟨Nat.toDigits 10 (v / 10), rfl, fun _ => rfl, fun h' => absurd h' h⟩

theorem toDigits_suffix_iff {k n : Nat} (v : Nat) (h : HasDigits k n) :
    Nat.toDigits 10 n <:+ Nat.toDigits 10 v ↔ v % 10 ^ k = n := by
  obtain ⟨hk, hlt, hge⟩ := h
  induction k generalizing n v with
  | zero => omega
  | succ k ih =>
    obtain ⟨ln, en, hn1, hn2⟩ := toDigits_split n
    obtain ⟨lv, ev, hv1, hv2⟩ := toDigits_split v
    rw [en, ev, concat_suffix_concat, digitChar_inj (Nat.mod_lt _ (by decide)) (Nat.mod_lt _ (by decide))]
    by_cases hk0 : k = 0
    · subst hk0
      rw [hn2 (by omega)]
      simp only [List.nil_suffix, true_and]
      omega
    · have hpow : 10 ^ k = 10 * 10 ^ (k - 1) := by
        rw [← pow_succ', Nat.sub_add_cancel (by omega)]
      have hpos : 0 < 10 ^ (k - 1) := Nat.pow_pos (by decide)
      have hn10 : 10 ^ k ≤ n := by rcases hge with h | h <;> [omega; exact h]
      rw [hn1 (by omega)]
      rw [pow_succ] at hlt
      by_cases hv10 : v < 10
      · -- a one-digit number does not end in a longer one
        rw [hv2 hv10]
        have hmod : v % 10 ^ (k + 1) = v := Nat.mod_eq_of_lt (by rw [pow_succ]; omega)
        rw [hmod]
        constructor
        · rintro ⟨h, -⟩
          exact absurd (List.suffix_nil.1 h) Nat.toDigits_ne_nil
        · intro h; omega
      · rw [hv1 (by omega), ih (v / 10) (by omega) (by omega) ?_]
        · rw [pow_succ', Nat.mod_mul]
          have := Nat.div_add_mod n 10
          have := Nat.mod_lt v (show 0 < 10 by decide)
          have := Nat.mod_lt n (show 0 < 10 by decide)
          constructor
          · rintro ⟨h1, h2⟩; omega
          · intro h; omega
        · right; omega

end Decimal
