import Mathlib.Data.Stream.Init
import Mathlib.Data.Nat.ModEq
import Mathlib.Data.List.Lex

/-!
# Raw memory and big-endian numbers

A C pointer is read without a bound, so what a pointer denotes is the infinite stream
of bytes from its address on (`Mem`). A buffer with known contents is `bs ++ₛ m`: the
bytes, then whatever lies behind them. Advancing a pointer is `Stream'.drop`; a length
that is counted down beside it is a `size_t` and wraps (`sizeSub`).

`Mem.be k m` is the number in the first `k` bytes, most significant first; `toBe k n`
writes it. `be_toBe` is the round trip, with the truncation to `k` bytes visible, and `toBe_be`
the other way round; `le` and `toLe` are the same with the least significant byte first.
-/

/-- Bytes are compared as numbers. -/
instance uint8LinearOrder : LinearOrder UInt8 where
  le_refl := UInt8.le_refl
  le_trans _ _ _ := UInt8.le_trans
  lt_iff_le_not_ge a b := by
    simp only [UInt8.lt_iff_toNat_lt, UInt8.le_iff_toNat_le]; omega
  le_antisymm _ _ := UInt8.le_antisymm
  le_total := UInt8.le_total
  toDecidableLE := inferInstance

namespace ByteMem

abbrev Bytes := List UInt8

instance lawfulBEqBytes : LawfulBEq Bytes := inferInstance

/-- Memory from an address on. -/
abbrev Mem := Stream' UInt8

/-- Subtraction of `size_t`. -/
def sizeSub (a b : Nat) : Nat := if b ≤ a then a - b else a + 2 ^ 64 - b

@[simp] theorem sizeSub_add_left (a b : Nat) : sizeSub (b + a) b = a := by
  simp [sizeSub]

theorem sizeSub_of_le {a b : Nat} (h : b ≤ a) : sizeSub a b = a - b := by
  simp [sizeSub, h]

/-! ## Reading behind a known prefix -/

theorem drop_append_of_eq {α : Type} {n : Nat} (l : List α) (m : Stream' α) (h : l.length = n) :
    (l ++ₛ m).drop n = m := by
  subst h; exact Stream'.drop_append_stream l m

theorem take_append_of_eq {α : Type} {n : Nat} (l : List α) (m : Stream' α) (h : l.length = n) :
    (l ++ₛ m).take n = l := by
  subst h; rw [Stream'.take_append_of_le_length _ l m le_rfl, List.take_length]

theorem get_append_add {α : Type} {m : Stream' α} {i k : Nat} {l : List α} {r : Stream' α} (h : m.drop i = l ++ₛ r)
    (hk : k < l.length) : m.get (i + k) = l[k] := by
  rw [← Stream'.get_append_left k l r hk, ← h, Stream'.get_drop]

theorem get_append_length {α : Type} {m : Stream' α} {i : Nat} {l : List α} {c : α} {r : Stream' α}
    (h : m.drop i = l ++ₛ Stream'.cons c r) : m.get (i + l.length) = c := by
  have hget : (m.drop i).get l.length = c := by
    rw [h, Stream'.get_append_length]
    rfl
  rw [← hget, Stream'.get_drop]

/-- Bytes in front of an end that they do not contain: `memcmp` over `l` compares within `x`. -/
theorem take_append_cons_eq_iff {x l : Bytes} {c : UInt8} (hc : c ∉ l) (r : Mem) :
    (x ++ₛ Stream'.cons c r).take l.length = l ↔ l <+: x := by
  constructor
  · intro h
    rcases Nat.lt_or_ge x.length l.length with hlt | hle
    · have hmem : x ++ₛ Stream'.cons c r = (x ++ [c]) ++ₛ r := by
        rw [Stream'.append_append_stream]
        rfl
      have hend : (x ++ [c]) <+: l := by
        rw [← h, hmem, show l.length = (x ++ [c]).length + (l.length - (x.length + 1)) by simp; omega,
          Stream'.take_add, take_append_of_eq _ _ rfl]
        exact List.prefix_append _ _
      exact absurd (hend.subset (by simp)) hc
    · rw [Stream'.take_append_of_le_length _ _ _ hle] at h
      rw [← h]
      exact List.take_prefix _ _
  · rintro ⟨y, rfl⟩
    rw [Stream'.append_append_stream, take_append_of_eq _ _ rfl]

/-- `while (p(*s)) s++`, for at most `fuel` bytes; `none` if it is still running then. -/
def seek (p : UInt8 → Bool) (m : Mem) : Nat → Nat → Option Nat
  | 0, _ => none
  | fuel + 1, i => if p (m.get i) then seek p m fuel (i + 1) else some i

theorem seek_eq {p : UInt8 → Bool} {m : Mem} {fuel i : Nat} {x : Bytes} {c : UInt8} {r : Mem}
    (h : m.drop i = x ++ₛ Stream'.cons c r) (hx : ∀ b ∈ x, p b = true) (hc : p c = false) (hf : x.length < fuel) :
    seek p m fuel i = some (i + x.length) := by
  induction x generalizing fuel i with
  | nil =>
    obtain ⟨fuel, rfl⟩ := Nat.exists_eq_add_of_lt hf
    have hget : m.get i = c := get_append_length h
    simp [seek, hget, hc]
  | cons b x ih =>
    obtain ⟨fuel, rfl⟩ : ∃ k, fuel = k + 1 := ⟨fuel - 1, by omega⟩
    have hget : m.get i = b := get_append_add h (Nat.succ_pos _)
    have hdrop : m.drop (i + 1) = x ++ₛ Stream'.cons c r := by
      rw [← Stream'.drop_drop, h]
      rfl
    rw [seek, hget, if_pos (hx b List.mem_cons_self),
      ih hdrop (fun b hb => hx b (List.mem_cons_of_mem _ hb)) (Nat.lt_of_succ_lt_succ hf), List.length_cons]
    congr 1
    omega

/-! ## Writing -/

/-- Memory after `bs` was copied to `off`. -/
def write (m : Mem) (off : Nat) (bs : Bytes) : Mem := m.take off ++ bs ++ₛ m.drop (off + bs.length)

theorem take_write (m : Mem) (bs : Bytes) {off k : Nat} (h : k ≤ off) : (write m off bs).take k = m.take k := by
  rw [write, Stream'.append_append_stream, Stream'.take_append_of_le_length _ _ _ (by simpa using h), Stream'.take_take,
    Nat.min_eq_right h]

/-- What lies before the copy is as it was. -/
theorem take_drop_write (m : Mem) (bs : Bytes) {off i k : Nat} (h : i + k ≤ off) :
    ((write m off bs).drop i).take k = (m.drop i).take k := by
  rw [Stream'.take_drop, take_write m bs h, ← Stream'.take_drop]

theorem drop_write (m : Mem) (off : Nat) (bs : Bytes) :
    (write m off bs).drop off = bs ++ₛ m.drop (off + bs.length) := by
  rw [write, Stream'.append_append_stream, drop_append_of_eq _ _ (Stream'.length_take ..)]

/-- A copy behind `off`, seen from there. -/
theorem drop_write_add (m : Mem) (off i : Nat) (bs : Bytes) :
    (write m (off + i) bs).drop off = write (m.drop off) i bs := by
  have hlen : off ≤ (m.take (off + i) ++ bs).length := by simp [Nat.add_assoc]
  have htake : (m.take (off + i)).drop off = (m.drop off).take i := by
    rw [Stream'.take_add, List.drop_left' (Stream'.length_take ..)]
  rw [write, write, Stream'.drop_append_of_le_length _ _ _ hlen, List.drop_append_of_le_length (by simp), htake,
    Stream'.drop_drop, Nat.add_assoc]

/-- What lies behind the copy is as it was. -/
theorem drop_write_behind (m : Mem) (bs : Bytes) {off i : Nat} (h : off + bs.length ≤ i) :
    (write m off bs).drop i = m.drop i := by
  obtain ⟨k, rfl⟩ := Nat.exists_eq_add_of_le h
  rw [← Stream'.drop_drop, ← Stream'.drop_drop, drop_write, drop_append_of_eq _ _ rfl, Stream'.drop_drop]

@[simp] theorem write_write (m : Mem) (off : Nat) (bs : Bytes) : write (write m off bs) off bs = write m off bs := by
  rw [write, take_write _ _ le_rfl, drop_write_behind m bs le_rfl]
  rfl

/-- What is there is written again. -/
theorem write_self (m : Mem) (off k : Nat) : write m off ((m.drop off).take k) = m := by
  rw [write, Stream'.length_take, ← Stream'.take_add, Stream'.append_take_drop]

/-- What was there is put back. -/
theorem write_back (m : Mem) (off : Nat) (bs : Bytes) :
    write (write m off bs) off ((m.drop off).take bs.length) = m := by
  rw [write, Stream'.length_take, take_write _ _ le_rfl, drop_write_behind m bs le_rfl, ← Stream'.take_add,
    Stream'.append_take_drop]

/-! ## Big-endian numbers -/

/-- The number in the first `k` bytes of memory. -/
def be : Nat → Mem → Nat
  | 0, _ => 0
  | k + 1, m => m.head.toNat * 256 ^ k + be k m.tail

/-- The `k` low bytes of `n`, most significant first. -/
def toBe : Nat → Nat → Bytes
  | 0, _ => []
  | k + 1, n => UInt8.ofNat (n / 256 ^ k) :: toBe k n

@[simp] theorem length_toBe (k n : Nat) : (toBe k n).length = k := by
  induction k with
  | zero => rfl
  | succ k ih => simp [toBe, ih]

theorem be_lt (k : Nat) (m : Mem) : be k m < 256 ^ k := by
  induction k generalizing m with
  | zero => simp [be]
  | succ k ih =>
    have h1 := ih m.tail
    have h2 : m.head.toNat ≤ 255 := Nat.le_of_lt_succ m.head.toNat_lt
    have h3 : m.head.toNat * 256 ^ k ≤ 255 * 256 ^ k := Nat.mul_le_mul_right _ h2
    rw [be, pow_succ]
    omega

/-- A number written in `k` bytes reads back modulo `256 ^ k`. -/
theorem be_toBe (k n : Nat) (m : Mem) : be k (toBe k n ++ₛ m) = n % 256 ^ k := by
  induction k with
  | zero => simp [be, Nat.mod_one]
  | succ k ih =>
    have hq : (UInt8.ofNat (n / 256 ^ k)).toNat = n / 256 ^ k % 256 := by simp
    show (UInt8.ofNat (n / 256 ^ k)).toNat * 256 ^ k + be k (toBe k n ++ₛ m) = _
    rw [hq, ih, pow_succ, Nat.mod_mul, Nat.mul_comm (256 ^ k), Nat.add_comm]

theorem toBe_add_mul (k a n : Nat) : toBe k (a * 256 ^ k + n) = toBe k n := by
  induction k generalizing a with
  | zero => rfl
  | succ k ih =>
    have hpow : a * 256 ^ (k + 1) + n = a * 256 * 256 ^ k + n := by rw [pow_succ', Nat.mul_assoc]
    have hdiv : (a * 256 * 256 ^ k + n) / 256 ^ k = a * 256 + n / 256 ^ k := by
      rw [Nat.add_comm, Nat.add_mul_div_right _ _ (Nat.pow_pos (by decide)), Nat.add_comm]
    have hbyte : UInt8.ofNat (a * 256 + n / 256 ^ k) = UInt8.ofNat (n / 256 ^ k) := by
      apply UInt8.toNat_inj.1
      simp
    rw [hpow, toBe, toBe, hdiv, hbyte, ih]

/-- What is read is written again. -/
theorem toBe_be (k : Nat) (m : Mem) : toBe k (be k m) = m.take k := by
  induction k generalizing m with
  | zero => rfl
  | succ k ih =>
    have hdiv : (m.head.toNat * 256 ^ k + be k m.tail) / 256 ^ k = m.head.toNat := by
      rw [Nat.add_comm, Nat.add_mul_div_right _ _ (Nat.pow_pos (by decide)), Nat.div_eq_of_lt (be_lt k m.tail),
        Nat.zero_add]
    rw [be, toBe, hdiv, toBe_add_mul, ih, UInt8.ofNat_toNat]
    rfl

/-- The number is in the first `k` bytes. -/
theorem be_append_congr {k : Nat} {b : Bytes} (h : k ≤ b.length) (m m' : Mem) : be k (b ++ₛ m) = be k (b ++ₛ m') := by
  induction k generalizing b with
  | zero => rfl
  | succ k ih =>
    cases b with
    | nil => simp at h
    | cons x b =>
      have hb : k ≤ b.length := by simpa using h
      simp only [be, Stream'.cons_append_stream, Stream'.head_cons, Stream'.tail_cons]
      rw [ih hb]

/-! ## Little-endian numbers -/

def le : Nat → Mem → Nat
  | 0, _ => 0
  | k + 1, m => m.head.toNat + 256 * le k m.tail

def toLe : Nat → Nat → Bytes
  | 0, _ => []
  | k + 1, n => UInt8.ofNat n :: toLe k (n / 256)

@[simp] theorem length_toLe (k n : Nat) : (toLe k n).length = k := by
  induction k generalizing n with
  | zero => rfl
  | succ k ih => simp [toLe, ih]

theorem le_toLe (k n : Nat) (m : Mem) : le k (toLe k n ++ₛ m) = n % 256 ^ k := by
  induction k generalizing n with
  | zero => simp [le, Nat.mod_one]
  | succ k ih =>
    have hd : (UInt8.ofNat n).toNat = n % 256 := by simp
    show (UInt8.ofNat n).toNat + 256 * le k (toLe k (n / 256) ++ₛ m) = _
    rw [hd, ih, pow_succ, mul_comm (256 ^ k), Nat.mod_mul]

theorem le_lt (k : Nat) (m : Mem) : le k m < 256 ^ k := by
  induction k generalizing m with
  | zero => simp [le]
  | succ k ih =>
    have h1 := ih m.tail
    have h2 : m.head.toNat < 256 := m.head.toNat_lt
    rw [le, pow_succ]
    omega

/-- Bytes are the number that they hold. -/
theorem toLe_le (k : Nat) (m : Mem) : toLe k (le k m) = m.take k := by
  induction k generalizing m with
  | zero => rfl
  | succ k ih =>
    have hlow : UInt8.ofNat (le (k + 1) m) = m.head := by
      rw [le, UInt8.ofNat_add, UInt8.ofNat_mul]
      simp
    have hhigh : le (k + 1) m / 256 = le k m.tail := by
      have := m.head.toNat_lt
      rw [le]
      omega
    rw [toLe, hlow, hhigh, ih]
    rfl

end ByteMem
