import Mathlib.Data.Nat.Bitwise
import Mathlib.Logic.Function.Basic
import NgxPlus.Lib.ByteMem

/-!
# Wire primitives and bit vectors (`mqtt_protocol.c`)

| here | there |
| --- | --- |
| `ngxUintxError`                       | `NGX_UINTX_ERROR` (`api/mqtt_protocol.h:40`): the in-band error value, **0** |
| `utilityMqttReadUint16`               | `mqtt_protocol.c:57-67`; too short a buffer reads as `UINT16_MAX`, not as `NGX_UINTX_ERROR` |
| `utilityMqttReadUint32`, `…Uint64`    | `mqtt_protocol.c:134-142`, `:200-213`; the length argument is ignored |
| `utilityMqttReadString`               | `mqtt_protocol.c:223-235`; `none` is `NGX_ERROR`, the length 65535 included |
| `utilityMqttWriteUint16`, `…Uint32`, `…Uint64` | `mqtt_protocol.c:49-54`, `:125-132`, `:174-185` |
| `BitVector`, `utilityBitVector…`      | `bit_vector_t` and `mqtt_protocol.c:316-365` |

The readers take a pointer and a length that the caller counts down; both wrap and
overrun in the source, so a pointer is the memory behind it (`Mem`). The `be`/`toBe`
equations below are all that later modules use of the byte arithmetic.
-/

namespace NgxPlus

open ByteMem

/-- `NGX_UINTX_ERROR`. -/
def ngxUintxError : Nat := 0

/-- `UINT_MAX`. -/
def uintMax : Nat := 2 ^ 32 - 1

/-! ## Numbers -/

def utilityMqttReadUint16 (p : Mem) (len : Nat) : Nat :=
  if len < 2 then 65535 else ((p.get 0).toNat <<< 8) + (p.get 1).toNat

def utilityMqttReadUint32 (b : Mem) : Nat :=
  ((b.get 0).toNat <<< 24) + ((b.get 1).toNat <<< 16) + ((b.get 2).toNat <<< 8) + (b.get 3).toNat

def utilityMqttReadUint64 (b : Mem) : Nat :=
  ((b.get 0).toNat <<< 56) + ((b.get 1).toNat <<< 48) + ((b.get 2).toNat <<< 40) +
    ((b.get 3).toNat <<< 32) + ((b.get 4).toNat <<< 24) + ((b.get 5).toNat <<< 16) +
    ((b.get 6).toNat <<< 8) + (b.get 7).toNat

/-- `p[0] = MOSQ_MSB(word); p[1] = MOSQ_LSB(word)`. -/
def utilityMqttWriteUint16 (word : Nat) : Bytes :=
  [UInt8.ofNat ((word &&& 0xFF00) >>> 8), UInt8.ofNat (word &&& 0x00FF)]

def utilityMqttWriteUint32 (n : Nat) : Bytes :=
  [UInt8.ofNat (n >>> 24 &&& 0xff), UInt8.ofNat (n >>> 16 &&& 0xff),
    UInt8.ofNat (n >>> 8 &&& 0xff), UInt8.ofNat (n &&& 0xff)]

def utilityMqttWriteUint64 (n : Nat) : Bytes :=
  [UInt8.ofNat (n >>> 56 &&& 0xff), UInt8.ofNat (n >>> 48 &&& 0xff),
    UInt8.ofNat (n >>> 40 &&& 0xff), UInt8.ofNat (n >>> 32 &&& 0xff),
    UInt8.ofNat (n >>> 24 &&& 0xff), UInt8.ofNat (n >>> 16 &&& 0xff),
    UInt8.ofNat (n >>> 8 &&& 0xff), UInt8.ofNat (n &&& 0xff)]

theorem readUint16_eq_be {p : Mem} {len : Nat} (h : 2 ≤ len) :
    utilityMqttReadUint16 p len = be 2 p := by
  rw [utilityMqttReadUint16, if_neg (by omega)]
  simp [be, Nat.shiftLeft_eq, Stream'.head]

theorem readUint32_eq_be (b : Mem) : utilityMqttReadUint32 b = be 4 b := by
  have hbe : be 4 b = (b.get 0).toNat * 256 ^ 3 + ((b.get 1).toNat * 256 ^ 2 + ((b.get 2).toNat * 256 ^ 1 +
      ((b.get 3).toNat * 256 ^ 0 + 0))) := rfl
  simp only [utilityMqttReadUint32, hbe, Nat.shiftLeft_eq]
  omega

theorem readUint64_eq_be (b : Mem) : utilityMqttReadUint64 b = be 8 b := by
  have hbe : be 8 b = (b.get 0).toNat * 256 ^ 7 + ((b.get 1).toNat * 256 ^ 6 + ((b.get 2).toNat * 256 ^ 5 +
      ((b.get 3).toNat * 256 ^ 4 + ((b.get 4).toNat * 256 ^ 3 + ((b.get 5).toNat * 256 ^ 2 +
        ((b.get 6).toNat * 256 ^ 1 + ((b.get 7).toNat * 256 ^ 0 + 0))))))) := rfl
  simp only [utilityMqttReadUint64, hbe, Nat.shiftLeft_eq]
  omega

/-- Masking with `0xff` is what storing into a byte does anyway. -/
theorem ofNat_and_ff (n : Nat) : UInt8.ofNat (n &&& 0xff) = UInt8.ofNat n := by
  apply UInt8.toNat_inj.1
  have h : n &&& 0xff = n % 2 ^ 8 := Nat.and_two_pow_sub_one_eq_mod n 8
  rw [UInt8.toNat_ofNat', UInt8.toNat_ofNat', h, Nat.mod_mod]

theorem writeUint16_eq_toBe (n : Nat) : utilityMqttWriteUint16 n = toBe 2 n := by
  have h : (n &&& 0xFF00) >>> 8 = n >>> 8 &&& 0xff := Nat.shiftRight_and_distrib
  simp only [utilityMqttWriteUint16, h, ofNat_and_ff, toBe, Nat.shiftRight_eq_div_pow,
    Nat.reducePow, Nat.div_one]

theorem writeUint32_eq_toBe (n : Nat) : utilityMqttWriteUint32 n = toBe 4 n := by
  simp only [utilityMqttWriteUint32, ofNat_and_ff, toBe, Nat.shiftRight_eq_div_pow,
    Nat.reducePow, Nat.div_one]

theorem writeUint64_eq_toBe (n : Nat) : utilityMqttWriteUint64 n = toBe 8 n := by
  simp only [utilityMqttWriteUint64, ofNat_and_ff, toBe, Nat.shiftRight_eq_div_pow,
    Nat.reducePow, Nat.div_one]

@[simp] theorem length_writeUint16 (n : Nat) : (utilityMqttWriteUint16 n).length = 2 := rfl
@[simp] theorem length_writeUint32 (n : Nat) : (utilityMqttWriteUint32 n).length = 4 := rfl
@[simp] theorem length_writeUint64 (n : Nat) : (utilityMqttWriteUint64 n).length = 8 := rfl

theorem readUint16_le (p : Mem) (len : Nat) : utilityMqttReadUint16 p len ≤ 65535 := by
  by_cases h : 2 ≤ len
  · have := be_lt 2 p
    rw [readUint16_eq_be h]; omega
  · rw [utilityMqttReadUint16, if_pos (by omega)]

/-! ### Reading back what was written -/

theorem readUint16_write (n : Nat) (m : Mem) {len : Nat} (h : 2 ≤ len) :
    utilityMqttReadUint16 (utilityMqttWriteUint16 n ++ₛ m) len = n % 2 ^ 16 := by
  rw [readUint16_eq_be h, writeUint16_eq_toBe, be_toBe]; rfl

theorem readUint32_write (n : Nat) (m : Mem) :
    utilityMqttReadUint32 (utilityMqttWriteUint32 n ++ₛ m) = n % 2 ^ 32 := by
  rw [readUint32_eq_be, writeUint32_eq_toBe, be_toBe]; rfl

theorem readUint64_write (n : Nat) (m : Mem) :
    utilityMqttReadUint64 (utilityMqttWriteUint64 n ++ₛ m) = n % 2 ^ 64 := by
  rw [readUint64_eq_be, writeUint64_eq_toBe, be_toBe]; rfl

/-! ## Strings -/

/-- `out` and the number of bytes consumed. -/
def utilityMqttReadString (p : Mem) (plen : Nat) : Option (Bytes × Nat) :=
  let len := utilityMqttReadUint16 p plen
  if len = 65535 then none
  else if sizeSub plen 2 < len then none
  else some ((p.drop 2).take len, 2 + len)

/-- A string whose length field is not the sentinel and whose bytes are there reads back. -/
theorem readString_write (b : Bytes) (m : Mem) {plen : Nat} (hb : b.length < 65535)
    (hp : 2 + b.length ≤ plen) :
    utilityMqttReadString (utilityMqttWriteUint16 b.length ++ b ++ₛ m) plen =
      some (b, 2 + b.length) := by
  have hlen : utilityMqttReadUint16 (utilityMqttWriteUint16 b.length ++ b ++ₛ m) plen = b.length := by
    rw [Stream'.append_append_stream, readUint16_write _ _ (by omega), Nat.mod_eq_of_lt (by omega)]
  have hs : sizeSub plen 2 = plen - 2 := sizeSub_of_le (by omega)
  have hd : (utilityMqttWriteUint16 b.length ++ b ++ₛ m).drop 2 = b ++ₛ m := by
    rw [Stream'.append_append_stream]; exact drop_append_of_eq _ _ rfl
  simp only [utilityMqttReadString, hlen, hs, hd]
  rw [if_neg (by omega), if_neg (by omega), take_append_of_eq _ _ rfl]

/-- The longest string the length field can announce is taken for an error. -/
theorem readString_max (p : Mem) {plen : Nat} (h : utilityMqttReadUint16 p plen = 65535) :
    utilityMqttReadString p plen = none := by
  simp [utilityMqttReadString, h]

/-! ## Bit vectors -/

/-- `bits` is the memory from the `bits` pointer on: the bound check of the operations
below admits the index `size`, one past the allocation. -/
structure BitVector where
  bits : Nat → UInt8
  size : Nat
  count : Int

/-- `utility_bit_vector_init` with the memory `ngx_slab_alloc` returned. -/
def utilityBitVectorInit (mem : Nat → UInt8) (n : Nat) : BitVector :=
  ⟨mem, if n = 0 then (uintMax >>> 3) + 1 else (n >>> 3) + 1, -1⟩

def bitMask (bit : Nat) : UInt8 := 1 <<< UInt8.ofNat (bit &&& 7)

def utilityBitVectorSet (bv : BitVector) (bit : Nat) : BitVector :=
  let pos := bit >>> 3
  if pos > bv.size then bv
  else { bv with bits := Function.update bv.bits pos (bv.bits pos ||| bitMask bit), count := -1 }

def utilityBitVectorGet (bv : BitVector) (bit : Nat) : Bool :=
  let pos := bit >>> 3
  if pos > bv.size then false
  else (bv.bits pos &&& bitMask bit) != 0

/-- `memset(bv->bits, 0, bv->size)`. -/
def utilityBitVectorClear (bv : BitVector) : BitVector :=
  { bv with bits := fun i => if i < bv.size then 0 else bv.bits i, count := -1 }

/-- A vector that has every bit a 32-bit number can name. -/
def BitVector.Covers32 (bv : BitVector) : Prop := 2 ^ 29 ≤ bv.size

theorem toNat_bitMask (bit : Nat) : (bitMask bit).toNat = 2 ^ (bit % 8) := by
  have h7 : bit &&& 7 = bit % 8 := Nat.and_two_pow_sub_one_eq_mod bit 3
  have hlt : bit % 8 < 8 := Nat.mod_lt _ (by omega)
  rw [bitMask, h7]
  generalize bit % 8 = b at hlt
  have hb : ∀ b < 8, ((1 : UInt8) <<< UInt8.ofNat b).toNat = 2 ^ b := by decide
  exact hb b hlt

theorem mask_ne_zero_iff (x : UInt8) (bit : Nat) :
    (x &&& bitMask bit != 0) = x.toNat.testBit (bit % 8) := by
  have h : (x &&& bitMask bit).toNat = (x.toNat.testBit (bit % 8)).toNat * 2 ^ (bit % 8) := by
    rw [UInt8.toNat_and, toNat_bitMask, Nat.and_two_pow]
  have hz : (x &&& bitMask bit = 0) ↔ (x &&& bitMask bit).toNat = 0 := by
    rw [← UInt8.toNat_inj]; rfl
  cases hb : x.toNat.testBit (bit % 8) with
  | true => simp [hz, h, hb]
  | false => simp [hz, h, hb]

/-- `get` inside the vector tests the bit. -/
theorem bitVectorGet_eq {bv : BitVector} {bit : Nat} (h : bit / 8 ≤ bv.size) :
    utilityBitVectorGet bv bit = (bv.bits (bit / 8)).toNat.testBit (bit % 8) := by
  have hpos : bit >>> 3 = bit / 8 := Nat.shiftRight_eq_div_pow bit 3
  simp only [utilityBitVectorGet, hpos]
  rw [if_neg (by omega), mask_ne_zero_iff]

@[simp] theorem size_bitVectorSet (bv : BitVector) (bit : Nat) :
    (utilityBitVectorSet bv bit).size = bv.size := by
  simp only [utilityBitVectorSet]; split <;> rfl

@[simp] theorem size_bitVectorClear (bv : BitVector) : (utilityBitVectorClear bv).size = bv.size := rfl

/-- `set` adds one bit to the set that `get` answers for. -/
theorem bitVectorGet_set {bv : BitVector} {a b : Nat} (ha : a / 8 ≤ bv.size) (hb : b / 8 ≤ bv.size) :
    utilityBitVectorGet (utilityBitVectorSet bv a) b = true ↔ b = a ∨ utilityBitVectorGet bv b = true := by
  have hpos : a >>> 3 = a / 8 := Nat.shiftRight_eq_div_pow a 3
  have hset : (utilityBitVectorSet bv a).bits =
      Function.update bv.bits (a / 8) (bv.bits (a / 8) ||| bitMask a) := by
    simp only [utilityBitVectorSet, hpos]; rw [if_neg (by omega)]
  rw [bitVectorGet_eq (by rw [size_bitVectorSet]; exact hb), bitVectorGet_eq hb, hset]
  by_cases hp : b / 8 = a / 8
  · rw [hp, Function.update_self, UInt8.toNat_or, Nat.testBit_or, toNat_bitMask, Nat.testBit_two_pow]
    have hab : a % 8 = b % 8 ↔ b = a := by omega
    simp [hab, or_comm]
  · rw [Function.update_of_ne hp]
    have hab : b ≠ a := fun h => hp (by rw [h])
    simp [hab]

theorem bitVectorGet_clear {bv : BitVector} {b : Nat} (hb : b / 8 < bv.size) :
    utilityBitVectorGet (utilityBitVectorClear bv) b = false := by
  have hs : b / 8 ≤ (utilityBitVectorClear bv).size := le_of_lt hb
  rw [bitVectorGet_eq hs]
  simp [utilityBitVectorClear, hb]

theorem Covers32.div_lt {bv : BitVector} (h : bv.Covers32) {n : Nat} (hn : n < 2 ^ 32) :
    n / 8 < bv.size := by
  unfold BitVector.Covers32 at h; omega

/-- Behind the vector every answer is no. -/
theorem bitVectorGet_behind {bv : BitVector} {b : Nat} (h : bv.size < b / 8) : utilityBitVectorGet bv b = false := by
  have hpos : b >>> 3 = b / 8 := Nat.shiftRight_eq_div_pow b 3
  simp only [utilityBitVectorGet, hpos]
  rw [if_pos h]

/-- Numbers go into the vector, and nothing else. -/
theorem bitVectorGet_foldl {bv : BitVector} (hc : bv.Covers32) {vals : List Nat} (hv : ∀ v ∈ vals, v < 2 ^ 32)
    (v : Nat) :
    utilityBitVectorGet (vals.foldl utilityBitVectorSet bv) v = true ↔ utilityBitVectorGet bv v = true ∨ v ∈ vals := by
  induction vals generalizing bv with
  | nil => simp
  | cons w vals ih =>
    have hw := (Covers32.div_lt hc (hv w List.mem_cons_self)).le
    have hc' : (utilityBitVectorSet bv w).Covers32 := by rwa [BitVector.Covers32, size_bitVectorSet]
    have hset : utilityBitVectorGet (utilityBitVectorSet bv w) v = true ↔ v = w ∨ utilityBitVectorGet bv v = true := by
      rcases Nat.lt_or_ge bv.size (v / 8) with hb | hb
      · have hne : v ≠ w := by
          rintro rfl
          omega
        rw [bitVectorGet_behind hb, bitVectorGet_behind (by rwa [size_bitVectorSet])]
        simp [hne]
      · exact bitVectorGet_set hw hb
    rw [List.foldl_cons, ih hc' fun x hx => hv x (List.mem_cons_of_mem _ hx), hset, List.mem_cons, or_comm (a := v = w),
      or_assoc]

end NgxPlus
