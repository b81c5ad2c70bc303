import NgxPlus.Lib.Checked
import NgxPlus.Mqtt.Framing
import NgxPlus.Mqtt.OffsetProcess

/-!
# The remaining length, written and read (`mqtt_protocol.c:76-120`, `mqtt.lua:529-553`)

| here | there |
| --- | --- |
| `utilityMqttWriteRemainingLeng`, `utilityMqttReadRemainingLeng` | `mqtt_protocol.c:76-119` (`OffsetProcess.lean`) |
| `utilityMqttReadRemainingLengChecked` | the reader on a buffer with nothing behind it |
| `luaRemaining`                        | the loop of `handler` (`mqtt.lua:532-540`), its index counted from the field's first byte |

The C reader consumes a byte and only then compares its count with the length of the buffer. A
field that ends together with the buffer is an error for it, which is the length 0 with nothing
behind it; and of an empty buffer it reads the byte behind (`remaining_length_iff`).
-/

namespace NgxPlus.Mqtt

open ByteMem Checked

/-- The loop of `readRemaining`, every byte read with a bounds check. -/
def readRemainingChecked (p : Bytes) (len : Nat) : Nat → Nat → Nat → Nat → Except Fault (Option (Nat × Nat))
  | 0, _, _, _ => .error .running
  | fuel + 1, count, mult, acc => do
    let byte ← byteAt p count
    if count + 1 = len then return none
    else if count + 1 > 4 then return none
    else
      let acc := (acc + (byte.toNat &&& 0x7F) * mult) % 2 ^ 32
      if byte.toNat &&& 0x80 ≠ 0 then readRemainingChecked p len fuel (count + 1) (mult * 128 % 2 ^ 32) acc
      else return some (count + 1, acc)

def utilityMqttReadRemainingLengChecked (p : Bytes) (len : Nat) : Except Fault (Option (Nat × Nat)) :=
  readRemainingChecked p len 5 0 1 0

/-- A run without a fault is the run on the memory, whatever is behind the buffer. -/
theorem readRemaining_of_checked {p : Bytes} {len fuel count mult acc : Nat} {r : Option (Nat × Nat)}
    (h : readRemainingChecked p len fuel count mult acc = .ok r) (behind : Mem) :
    readRemaining (p ++ₛ behind) len fuel count mult acc = r := by
  induction fuel generalizing count mult acc with
  | zero => cases h
  | succ fuel ih =>
    rw [readRemainingChecked] at h
    obtain ⟨byte, hbyte, h⟩ := Decode.bind_eq_ok.1 h
    rw [readRemaining]
    simp only [get_of_byteAt hbyte behind]
    by_cases hlen : count + 1 = len
    · rw [if_pos hlen] at h ⊢
      exact Except.ok.inj h
    · rw [if_neg hlen] at h ⊢
      by_cases h4 : count + 1 > 4
      · rw [if_pos h4] at h ⊢
        exact Except.ok.inj h
      · rw [if_neg h4] at h ⊢
        by_cases hmore : byte.toNat &&& 0x80 ≠ 0
        · rw [if_pos hmore] at h ⊢
          exact ih h
        · rw [if_neg hmore] at h ⊢
          exact Except.ok.inj h

/-! ## What is written -/

theorem ofNat_or_80 : ∀ b < 128, UInt8.ofNat (b ||| 0x80) = UInt8.ofNat (b + 128) := by decide

/-- Both writers set the top bit of all bytes but the last. -/
theorem writeRemaining_eq (fuel n : Nat) : writeRemaining fuel n = encodeRemaining fuel n := by
  induction fuel generalizing n with
  | zero => rfl
  | succ fuel ih => rw [writeRemaining, encodeRemaining, ih, ofNat_or_80 _ (Nat.mod_lt _ (by decide))]

theorem length_writeRemaining_le {k : Nat} (fuel : Nat) {n : Nat} (h : n < 128 ^ (k + 1)) :
    (writeRemaining fuel n).length ≤ k + 1 := by
  induction fuel generalizing k n with
  | zero => simp [writeRemaining]
  | succ fuel ih =>
    rw [writeRemaining]
    split
    · rename_i hmore
      obtain ⟨k, rfl⟩ : ∃ j, k = j + 1 := ⟨k - 1, by
        rcases k with - | k
        · omega
        · rfl⟩
      have hdiv : n / 128 < 128 ^ (k + 1) := Nat.div_lt_of_lt_mul (by rwa [← pow_succ'])
      exact Nat.succ_le_succ (ih hdiv)
    · simp

/-- One to four bytes. -/
theorem length_writeRemainingLeng {n : Nat} (h : n < 2 ^ 28) :
    1 ≤ (utilityMqttWriteRemainingLeng n).length ∧ (utilityMqttWriteRemainingLeng n).length ≤ 4 := by
  have hpos : 0 < (encodeRemaining (4 + 1) n).length := Framing.encodeRemaining_length 4 n
  rw [utilityMqttWriteRemainingLeng]
  exact ⟨by rwa [writeRemaining_eq], length_writeRemaining_le 5 (k := 3) h⟩

/-! ## What is read -/

/-- The length of a payload, written in front of it and read by both programs. -/
def LengthRead (payload : Bytes) (behind : Mem) : Prop :=
  let w := utilityMqttWriteRemainingLeng payload.length
  (1 ≤ w.length ∧ w.length ≤ 4) ∧
    utilityMqttReadRemainingLeng (w ++ payload ++ₛ behind) (w ++ payload).length = some (w.length, payload.length) ∧
      luaRemaining (w ++ payload) 1 0 1 = some (payload.length, w.length)

theorem lengthRead_of_ne_nil {payload : Bytes} (h : payload.length < 2 ^ 28) (hne : payload ≠ []) (behind : Mem) :
    LengthRead payload behind := by
  have hpos : 0 < payload.length := List.length_pos_iff.2 hne
  refine ⟨length_writeRemainingLeng h, ?_, ?_⟩
  · rw [Stream'.append_append_stream]
    exact readRemainingLeng_write _ h (by simp; omega)
  · have h5 : payload.length < 128 ^ (4 + 1) := by omega
    have hlua := Framing.luaRemaining_encode h5 payload 1 0 1
    rw [← writeRemaining_eq, Nat.zero_add, Nat.mul_one, Nat.add_sub_cancel_left] at hlua
    exact hlua

/-- The byte of the length 0 is the last one of the buffer. -/
theorem not_lengthRead_nil (behind : Mem) : ¬ LengthRead [] behind := by
  rintro ⟨-, h, -⟩
  cases h

/-- Of the first five bytes, as many as there are, none ends the field. -/
def Unterminated (p : Bytes) : Prop := ∀ b ∈ p.take 5, 127 < b

/-- `NGX_ERROR`, and all reads inside the buffer. -/
def Refused (p : Bytes) : Prop :=
  utilityMqttReadRemainingLengChecked p p.length = .ok none ∧
    ∀ behind, utilityMqttReadRemainingLeng (p ++ₛ behind) p.length = none

theorem more_bit {b : UInt8} (h : 127 < b) : b.toNat &&& 0x80 ≠ 0 := by
  have hbits : ∀ n < 256, 127 < n → n &&& 0x80 ≠ 0 := by decide +kernel
  exact hbits b.toNat b.toNat_lt (UInt8.lt_iff_toNat_lt.1 h)

/-- From byte `count` on. -/
theorem readRemainingChecked_unterminated {p : Bytes} (h : Unterminated p) {fuel count : Nat} (hfuel : fuel + count = 5)
    (hcount : count < p.length) (hpos : 0 < fuel) (mult acc : Nat) :
    readRemainingChecked p p.length fuel count mult acc = .ok none := by
  induction fuel generalizing count mult acc with
  | zero => omega
  | succ fuel ih =>
    have hbyte : byteAt p count = .ok p[count] := by
      rw [byteAt_eq hcount (Stream'.const 0), Stream'.get_append_left count p _ hcount]
    have habove : 127 < p[count] := h _ (List.mem_take_iff_getElem.2 ⟨count, by omega, rfl⟩)
    rw [readRemainingChecked, hbyte, Decode.ok_bind]
    by_cases hlen : count + 1 = p.length
    · rw [if_pos hlen]
      rfl
    · rw [if_neg hlen]
      by_cases h4 : count + 1 > 4
      · rw [if_pos h4]
        rfl
      · rw [if_neg h4]
        simp only [if_pos (more_bit habove)]
        exact ih (by omega) (by omega) (by omega) _ _

theorem refused_of_ne_nil {p : Bytes} (h : Unterminated p) (hne : p ≠ []) : Refused p := by
  have hchecked : utilityMqttReadRemainingLengChecked p p.length = .ok none :=
    readRemainingChecked_unterminated h rfl (List.length_pos_iff.2 hne) (by decide) 1 0
  exact ⟨hchecked, readRemaining_of_checked hchecked⟩

/-- The first byte is read before the length is looked at. -/
theorem not_refused_nil : ¬ Refused [] := by
  rintro ⟨h, -⟩
  cases h

/-- **The remaining length.** It is read back from in front of every payload but the empty one, and
a field that does not end is refused within the buffer unless the buffer is empty. -/
theorem remaining_length_iff {payload p : Bytes} (hn : payload.length < 2 ^ 28) (hp : Unterminated p) (behind : Mem) :
    (LengthRead payload behind ↔ payload ≠ []) ∧ (Refused p ↔ p ≠ []) := by
  refine ⟨⟨?_, fun h => lengthRead_of_ne_nil hn h behind⟩, ⟨?_, refused_of_ne_nil hp⟩⟩
  · rintro h rfl
    exact not_lengthRead_nil behind h
  · rintro h rfl
    exact not_refused_nil h

/-- One byte behind its length, and a field of two bytes that the buffer cuts. -/
theorem remaining_length_one : LengthRead [7] (Stream'.const 0) ∧ Refused [0x80, 0x80] := by
  have hp : Unterminated [0x80, 0x80] := by
    unfold Unterminated
    decide +kernel
  have h := remaining_length_iff (by decide : [(7 : UInt8)].length < 2 ^ 28) hp (Stream'.const 0)
  exact ⟨h.1.2 (by decide), h.2.2 (by decide)⟩

/-- The length 0, which the Lua loop reads; and the empty buffer. -/
theorem empty_payload_refused :
    ¬ LengthRead [] (Stream'.const 0) ∧ utilityMqttReadRemainingLeng ([0] ++ₛ Stream'.const 0) 1 = none ∧
      luaRemaining [0] 1 0 1 = some (0, 1) ∧ ¬ Refused [] :=
  ⟨not_lengthRead_nil _, by decide +kernel, by decide, not_refused_nil⟩

end NgxPlus.Mqtt
