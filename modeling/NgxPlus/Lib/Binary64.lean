import Mathlib.Algebra.Order.Ring.Int
import NgxPlus.Lib.ByteMem

/-!
# Binary64 numbers in memory

A `double` is eight bytes, least significant first on this machine: a sign, eleven bits of
exponent and 52 bits of fraction. `value` is the number times `2^1074`, which is an integer
for every one of them; the infinities come out above and below all finite numbers, and what
is not a number has no value and compares with nothing. `ofNat` is the conversion of a number
below `2^53`, which is exact.
-/

namespace Binary64

open ByteMem

/-- `2^1074`, never computed. -/
@[irreducible] def scale : Int := 2 ^ 1074

theorem scale_pos : 0 < scale := by
  unfold scale
  exact Int.pow_pos (by decide)

theorem scaled_lt (a b : Nat) : (a : Int) * scale < (b : Int) * scale ↔ a < b := by
  constructor
  · intro h
    exact_mod_cast lt_of_mul_lt_mul_right h scale_pos.le
  · intro h
    exact mul_lt_mul_of_pos_right (by exact_mod_cast h) scale_pos

/-- The number denoted by a 64-bit pattern, scaled by `2^1074`. -/
def value (w : Nat) : Option Int :=
  let fraction := w % 2 ^ 52
  let exponent := w / 2 ^ 52 % 2 ^ 11
  if exponent = 2047 ∧ fraction ≠ 0 then none
  else
    let magnitude : Nat := if exponent = 0 then fraction else (2 ^ 52 + fraction) * 2 ^ (exponent - 1)
    some (if w / 2 ^ 63 % 2 = 0 then magnitude else -magnitude)

/-- `*(double *) p`. -/
def load (p : Mem) : Option Int := value (le 8 p)

/-- `a > n`, for an integer `n`; false for what is not a number. -/
def gtInt (a : Option Int) (n : Nat) : Bool :=
  match a with
  | some a => a > n * scale
  | none => false

def ltInt (a : Option Int) (n : Nat) : Bool :=
  match a with
  | some a => a < n * scale
  | none => false

/-- `a >= b`. -/
def ge : Option Int → Option Int → Bool
  | some a, some b => a ≥ b
  | _, _ => false

/-- The pattern of `(double) n`, for `0 < n < 2^53`. -/
def ofNat (n : Nat) : Nat :=
  (Nat.log2 n + 1023) * 2 ^ 52 + (n * 2 ^ (52 - Nat.log2 n) - 2 ^ 52)

theorem log2_lt_53 {n : Nat} (h0 : 0 < n) (h : n < 2 ^ 53) : Nat.log2 n < 53 := (Nat.log2_lt h0.ne').2 h

/-- Shifted to 53 bits, the leading one in front. -/
theorem shifted_bounds {n : Nat} (h0 : 0 < n) (h : n < 2 ^ 53) :
    2 ^ 52 ≤ n * 2 ^ (52 - Nat.log2 n) ∧ n * 2 ^ (52 - Nat.log2 n) < 2 ^ 53 := by
  have hk := log2_lt_53 h0 h
  have hlo : 2 ^ Nat.log2 n ≤ n := Nat.log2_self_le h0.ne'
  have hhi : n < 2 ^ (Nat.log2 n + 1) := Nat.lt_log2_self
  constructor
  · calc 2 ^ 52 = 2 ^ Nat.log2 n * 2 ^ (52 - Nat.log2 n) := by
          rw [← pow_add, show Nat.log2 n + (52 - Nat.log2 n) = 52 by omega]
      _ ≤ n * 2 ^ (52 - Nat.log2 n) := Nat.mul_le_mul_right _ hlo
  · calc n * 2 ^ (52 - Nat.log2 n) < 2 ^ (Nat.log2 n + 1) * 2 ^ (52 - Nat.log2 n) :=
          Nat.mul_lt_mul_of_pos_right hhi (Nat.two_pow_pos _)
      _ = 2 ^ 53 := by rw [← pow_add, show Nat.log2 n + 1 + (52 - Nat.log2 n) = 53 by omega]

theorem value_ofNat {n : Nat} (h0 : 0 < n) (h : n < 2 ^ 53) :
    value (ofNat n) = some ((n : Int) * scale) := by
  have hk := log2_lt_53 h0 h
  obtain ⟨h1, h2⟩ := shifted_bounds h0 h
  unfold ofNat
  generalize Nat.log2 n = k at hk h1 h2
  generalize hf : n * 2 ^ (52 - k) - 2 ^ 52 = f
  have hf52 : f < 2 ^ 52 := by omega
  have hmod : ((k + 1023) * 2 ^ 52 + f) % 2 ^ 52 = f := by omega
  have hexp : ((k + 1023) * 2 ^ 52 + f) / 2 ^ 52 % 2 ^ 11 = k + 1023 := by omega
  have hsign : ((k + 1023) * 2 ^ 52 + f) / 2 ^ 63 % 2 = 0 := by omega
  have hmag : (2 ^ 52 + f) * 2 ^ (k + 1023 - 1) = n * 2 ^ 1074 := by
    have hfe : 2 ^ 52 + f = n * 2 ^ (52 - k) := by omega
    rw [hfe, mul_assoc, ← pow_add, show 52 - k + (k + 1023 - 1) = 1074 by omega]
  unfold value
  simp only [hmod, hexp, hsign, if_true]
  have hnan : ¬ (k + 1023 = 2047 ∧ f ≠ 0) := by omega
  have hsub : k + 1023 ≠ 0 := by omega
  rw [if_neg hnan, if_neg hsub, hmag, Int.natCast_mul, Int.natCast_pow, scale]
  rfl

theorem ofNat_lt {n : Nat} (h0 : 0 < n) (h : n < 2 ^ 53) : ofNat n < 2 ^ 64 := by
  have hk := log2_lt_53 h0 h
  have h2 := (shifted_bounds h0 h).2
  unfold ofNat
  omega

/-- The bytes of `(double) n`. -/
def bytes (n : Nat) : Bytes := toLe 8 (ofNat n)

@[simp] theorem length_bytes (n : Nat) : (bytes n).length = 8 := length_toLe 8 _

theorem load_bytes {n : Nat} (h0 : 0 < n) (h : n < 2 ^ 53) (m : Mem) :
    load (bytes n ++ₛ m) = some ((n : Int) * scale) := by
  have hw : ofNat n % 256 ^ 8 = ofNat n := Nat.mod_eq_of_lt (ofNat_lt h0 h)
  rw [load, bytes, le_toLe, hw, value_ofNat h0 h]

section

variable {n : Nat} (h0 : 0 < n) (h : n < 2 ^ 53) (m : Mem)
include h0 h

theorem gtInt_bytes (c : Nat) : gtInt (load (bytes n ++ₛ m)) c = decide (n > c) := by
  rw [load_bytes h0 h, gtInt]
  exact decide_eq_decide.2 (scaled_lt c n)

theorem ltInt_bytes (c : Nat) : ltInt (load (bytes n ++ₛ m)) c = decide (n < c) := by
  rw [load_bytes h0 h, ltInt]
  exact decide_eq_decide.2 (scaled_lt n c)

theorem ge_bytes {k : Nat} (hk0 : 0 < k) (hk : k < 2 ^ 53) (m' : Mem) :
    ge (load (bytes n ++ₛ m)) (load (bytes k ++ₛ m')) = decide (n ≥ k) := by
  rw [load_bytes h0 h, load_bytes hk0 hk, ge]
  refine decide_eq_decide.2 ?_
  rw [ge_iff_le, ← not_lt, scaled_lt, not_lt]

end

end Binary64
