import Mathlib.Tactic.NormNum
import Mathlib.Tactic.Linarith
import Mathlib.Data.Rat.Cast.Order

/-!
# The offset ring

| here | there |
| --- | --- |
| `intMaxRing`, `intMaxRing1`, `intMaxRing2` | `INT_MAX_RING…` of `strict.lua:14-16`, and with the same values `MQTT.INT_MAX_RING…` of the server |
| `cIntMaxRing1`, `cIntMaxRing2`             | the macros of `ngx_http_lua_mqtt_util.c:12-15` |

Offsets run from 1 to `intMaxRing`; after it comes 1 again (`ringSucc`). In Lua a third of the
ring is 715826666.67, which no offset is equal to; in C the division cuts it to 715826666.
-/

namespace NgxPlus.Mqtt

def intMaxRing : Nat := 2147480000

def intMaxRing1 : ℚ := intMaxRing / 3

def intMaxRing2 : ℚ := intMaxRing1 + intMaxRing1

def cIntMaxRing1 : Nat := intMaxRing / 3

def cIntMaxRing2 : Nat := cIntMaxRing1 + cIntMaxRing1

/-- The offset after `o`. -/
def ringSucc (o : Nat) : Nat := if o ≥ intMaxRing then 1 else o + 1

/-- The offset of the `n`-th message, 0 for none. -/
def ringAt (n : Nat) : Nat := if n = 0 then 0 else (n - 1) % intMaxRing + 1

theorem ringAt_pos (n : Nat) : ringAt (n + 1) = n % intMaxRing + 1 := rfl

theorem ringAt_succ (n : Nat) : ringAt (n + 1) = ringSucc (ringAt n) := by
  cases n with
  | zero => rfl
  | succ n =>
    have hlt : n % intMaxRing < intMaxRing := Nat.mod_lt _ (by decide)
    rw [ringAt_pos, ringAt_pos, ringSucc, Nat.add_mod, show 1 % intMaxRing = 1 from rfl]
    by_cases h : n % intMaxRing + 1 = intMaxRing
    · rw [if_pos h.ge, h, Nat.mod_self]
    · rw [if_neg (by omega), Nat.mod_eq_of_lt (by omega)]

theorem ringAt_of_le {n : Nat} (h : n ≤ intMaxRing) : ringAt n = n := by
  unfold ringAt intMaxRing at *
  split <;> omega

theorem ringAt_le (n : Nat) : ringAt n ≤ intMaxRing := by
  unfold ringAt intMaxRing
  split <;> omega

theorem ringAt_second_lap {n : Nat} (h : intMaxRing < n) (hle : n ≤ 2 * intMaxRing) : ringAt n = n - intMaxRing := by
  unfold ringAt intMaxRing at *
  split <;> omega

/-- Before the second wrap, only the last message of the first lap has the last offset. -/
theorem ringAt_ge_iff {n : Nat} (h : n < 2 * intMaxRing) : intMaxRing ≤ ringAt n ↔ n = intMaxRing := by
  rcases Nat.lt_or_ge intMaxRing n with hw | hw
  · rw [ringAt_second_lap hw h.le]
    omega
  · rw [ringAt_of_le hw]
    omega

/-! ## Comparisons with the thirds -/

theorem intMaxRing1_eq : intMaxRing1 = 2147480000 / 3 := by norm_num [intMaxRing1, intMaxRing]

theorem intMaxRing2_eq : intMaxRing2 = 4294960000 / 3 := by norm_num [intMaxRing2, intMaxRing1_eq]

section

variable {n : Nat}

theorem cast_le_ring1 : (n : ℚ) ≤ intMaxRing1 ↔ n ≤ 715826666 := by
  rw [intMaxRing1_eq, le_div_iff₀ (by norm_num)]
  norm_cast
  omega

theorem cast_lt_ring1 : (n : ℚ) < intMaxRing1 ↔ n ≤ 715826666 := by
  rw [intMaxRing1_eq, lt_div_iff₀ (by norm_num)]
  norm_cast
  omega

theorem ring2_lt_cast : intMaxRing2 < (n : ℚ) ↔ 1431653333 < n := by
  rw [intMaxRing2_eq, div_lt_iff₀ (by norm_num)]
  norm_cast
  omega

theorem cast_ne_ring1 : (n : ℚ) ≠ intMaxRing1 := by
  rw [intMaxRing1_eq, ne_eq, eq_div_iff (by norm_num)]
  norm_cast
  omega

theorem cast_ne_ring2 : (n : ℚ) ≠ intMaxRing2 := by
  rw [intMaxRing2_eq, ne_eq, eq_div_iff (by norm_num)]
  norm_cast
  omega

end

end NgxPlus.Mqtt
