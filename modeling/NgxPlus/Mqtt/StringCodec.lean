import NgxPlus.Diversion.LuaCodec

/-!
# The four string functions (`mqtt_protocol.c`, `lib/Utility.lua`)

| here | there |
| --- | --- |
| `utilityMqttWriteString`  | `mqtt_protocol.c:216-221`, as the memory from `p` on afterwards and the number returned |
| `utilityMqttReadString`   | `mqtt_protocol.c:223-235` |
| `encodeUtf8`              | `encode_utf8` (`Utility.lua:79-85`) |
| `decodeUtf8At`            | `decode_utf8` (`Utility.lua:87-91`), with its index and both its results |

All four are a length of two bytes and the bytes. `utility_mqtt_read_uint16` answers
`UINT16_MAX` for a buffer without a length, and `utility_mqtt_read_string` takes that answer for
the error also where it is the length that is written there: a string of 65535 bytes is the one
that C does not read back (`string_codecs_agree_iff`).
-/

namespace NgxPlus.Mqtt

open ByteMem
open NgxPlus.Diversion (LuaError encodeUtf8 decodeUtf8 encodeUtf8_ok)

/-- The buffer's length is not looked at; `memcpy` is given 32 bits of the string's. -/
def utilityMqttWriteString (m : Mem) (str : Bytes) : Mem × Nat :=
  (write (write m 0 (utilityMqttWriteUint16 (str.length % 2 ^ 16))) 2 (str.take (str.length % 2 ^ 32)), str.length + 2)

/-- `string.byte(input, i)` from 1; the second result is `_length`. -/
def decodeUtf8At (input : Bytes) (index : Nat) : Except LuaError (Bytes × Nat) :=
  match input[index - 1]?, input[index]? with
  | some msb, some lsb =>
    let length := msb.toNat * 256 + lsb.toNat
    .ok ((input.drop (index + 1)).take length, length)
  | _, _ => .error .arithNil

/-- The readers of whole messages go on with what is behind the string. -/
theorem decodeUtf8_drop (input : Bytes) (i : Nat) :
    decodeUtf8 (input.drop i) = (decodeUtf8At input (i + 1)).map fun r => (r.1, input.drop (i + 2 + r.2)) := by
  have h0 : input[i]? = (input.drop i)[0]? := by rw [List.getElem?_drop, Nat.add_zero]
  have h1 : input[i + 1]? = (input.drop i)[1]? := by rw [List.getElem?_drop]
  have h2 : input.drop (i + 2) = (input.drop i).drop 2 := by rw [List.drop_drop]
  rw [decodeUtf8At, Nat.add_sub_cancel, h0, h1]
  simp only [← List.drop_drop, h2]
  rcases input.drop i with - | ⟨b0, - | ⟨b1, bs⟩⟩ <;> rfl

/-! ## What is written -/

theorem writeString_eq (m : Mem) {s : Bytes} (hs : s.length ≤ 65535) :
    utilityMqttWriteString m s =
      (utilityMqttWriteUint16 s.length ++ s ++ₛ m.drop (s.length + 2), s.length + 2) := by
  have hlen : s.take (s.length % 2 ^ 32) = s := by rw [Nat.mod_eq_of_lt (by omega), List.take_length]
  have hhead : write m 0 (utilityMqttWriteUint16 s.length) = utilityMqttWriteUint16 s.length ++ₛ m.drop 2 := rfl
  have hrest : (utilityMqttWriteUint16 s.length ++ₛ m.drop 2).drop (2 + s.length) = m.drop (s.length + 2) := by
    have h2 : (utilityMqttWriteUint16 s.length ++ₛ m.drop 2).drop 2 = m.drop 2 := drop_append_of_eq _ _ rfl
    rw [← Stream'.drop_drop, h2, Stream'.drop_drop, Nat.add_comm]
  have htake : (utilityMqttWriteUint16 s.length ++ₛ m.drop 2).take 2 = utilityMqttWriteUint16 s.length :=
    take_append_of_eq _ _ rfl
  rw [utilityMqttWriteString, Nat.mod_eq_of_lt (by omega : s.length < 2 ^ 16), hlen, hhead, write, hrest, htake]

theorem decodeUtf8At_write {s : Bytes} (hs : s.length ≤ 65535) (r : Bytes) :
    decodeUtf8At (utilityMqttWriteUint16 s.length ++ s ++ r) 1 = .ok (s, s.length) := by
  have hlen : s.length / 256 % 256 * 256 + s.length % 256 = s.length := by omega
  rw [writeUint16_eq_toBe]
  simp [toBe, decodeUtf8At, hlen]

/-! ## What is read -/

/-- The length in front of a buffer. -/
def announced : Bytes → Nat
  | msb :: lsb :: _ => msb.toNat * 256 + lsb.toNat
  | _ => 0

/-- A buffer that ends before its string does, or inside the length. -/
theorem readString_short {buf : Bytes} (h : buf.length < 2 + announced buf) (behind : Mem) :
    utilityMqttReadString (buf ++ₛ behind) buf.length = none := by
  match buf with
  | [] => exact readString_max _ rfl
  | [_] => exact readString_max _ rfl
  | msb :: lsb :: rest =>
    have hlen : utilityMqttReadUint16 (msb :: lsb :: rest ++ₛ behind) (rest.length + 2) =
        msb.toNat * 256 + lsb.toNat := by
      rw [utilityMqttReadUint16, if_neg (by omega), Nat.shiftLeft_eq]
      rfl
    rw [announced, List.length_cons, List.length_cons] at h
    simp only [utilityMqttReadString, List.length_cons]
    rw [hlen, sizeSub_of_le (by omega)]
    split
    · rfl
    · rw [if_pos (by omega)]

/-- The four functions on one string, in front of `r` and at the memory `m`. -/
def CodecsAgree (s r : Bytes) (m behind : Mem) : Prop :=
  ∃ e, encodeUtf8 s = .ok e ∧ utilityMqttWriteString m s = (e ++ₛ m.drop e.length, e.length) ∧
    utilityMqttReadString (e ++ r ++ₛ behind) (e ++ r).length = some (s, e.length) ∧
      decodeUtf8At (e ++ r) 1 = .ok (s, s.length)

theorem codecsAgree_of_lt {s : Bytes} (hs : s.length < 65535) (r : Bytes) (m behind : Mem) :
    CodecsAgree s r m behind := by
  refine ⟨_, encodeUtf8_ok hs.le, ?_, ?_, decodeUtf8At_write hs.le r⟩
  · rw [writeString_eq m hs.le, List.length_append, length_writeUint16, Nat.add_comm 2]
  · rw [Stream'.append_append_stream, readString_write s _ hs (by simp), List.length_append, length_writeUint16]

theorem not_codecsAgree_max {s : Bytes} (hs : s.length = 65535) (r : Bytes) (m behind : Mem) :
    ¬ CodecsAgree s r m behind := by
  rintro ⟨e, he, -, hread, -⟩
  rw [encodeUtf8_ok hs.le] at he
  obtain rfl := Except.ok.inj he
  have hmax : utilityMqttReadUint16 (utilityMqttWriteUint16 s.length ++ s ++ r ++ₛ behind)
      (utilityMqttWriteUint16 s.length ++ s ++ r).length = 65535 := by
    rw [List.append_assoc, Stream'.append_append_stream, readUint16_write _ _ (by simp), hs,
      Nat.mod_eq_of_lt (by decide)]
  rw [readString_max _ hmax] at hread
  cases hread

/-- **One string format**, but for the longest string; and no string out of a buffer that is too
short for it. -/
theorem string_codecs_agree_iff {s : Bytes} (hs : s.length ≤ 65535) (r : Bytes) (m behind : Mem) (buf : Bytes) :
    (CodecsAgree s r m behind ↔ s.length ≠ 65535) ∧
      (buf.length < 2 + announced buf → utilityMqttReadString (buf ++ₛ behind) buf.length = none) := by
  refine ⟨⟨fun h hmax => not_codecsAgree_max hmax r m behind h, fun hne => ?_⟩, fun h => readString_short h behind⟩
  exact codecsAgree_of_lt (by omega) r m behind

/-- `"a/b"` in front of two more bytes; and a buffer that announces three bytes and has two. -/
theorem string_codecs_agree_topic :
    CodecsAgree [0x61, 0x2f, 0x62] [1, 2] (Stream'.const 0) (Stream'.const 0) ∧
      utilityMqttReadString ([0, 3, 1, 2] ++ₛ Stream'.const 0) 4 = none := by
  have h := string_codecs_agree_iff (s := [0x61, 0x2f, 0x62]) (by decide) [1, 2] (Stream'.const 0) (Stream'.const 0)
    [0, 3, 1, 2]
  exact ⟨h.1.2 (by decide), h.2 (by decide)⟩

/-- The longest string: the length is taken for the error value. -/
theorem longest_string_unread :
    (List.replicate 65535 (0x61 : UInt8)).length ≤ 65535 ∧
      ¬ CodecsAgree (List.replicate 65535 0x61) [] (Stream'.const 0) (Stream'.const 0) := by
  have hlen : (List.replicate 65535 (0x61 : UInt8)).length = 65535 := List.length_replicate
  exact ⟨hlen.le, not_codecsAgree_max hlen _ _ _⟩

end NgxPlus.Mqtt
