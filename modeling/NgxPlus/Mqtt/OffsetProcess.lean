import NgxPlus.MqttProtocol
import NgxPlus.Mqtt.Topic
import NgxPlus.Mqtt.Shdict

/-!
# The notification's offset dictionary (`ngx_ffi_mqtt_offset_process`)

| here | there |
| --- | --- |
| `utilityMqttWriteRemainingLeng`, `utilityMqttReadRemainingLeng` | `mqtt_protocol.c:76-119` |
| `msgKey`                  | the key of the message store, `topic/msg_id` (`ngx_http_lua_mqtt_util.c:552-562`); its length is counted on `msg_id` cut to an `int` |
| `offsetZone`              | the choice of the zone (`:569-576`): `ngx_strstr` from the topic's first byte runs on into what follows the topic |
| `ngxFfiMqttOffsetProcess` | `:503-596`, as the list of the calls it makes on the zones |
| `subscribeStore`          | `mqtt_process_subscribe` (`mqtt_server_module.lua:347-368`), by the subscription |
| `pubackStore`             | `parse_message_puback` (`:506-512`), by the topic |

The three zones are declared in `mqtt.websocket.conf`, so `ngx_http_lua_find_zone` finds them.
`mem` is the memory from the buffer on; the buffer is a Lua string, which a NUL follows. When
the remaining length is not read, the variable stays uninitialised: `garbage`.

`writer_readers_same_dict`: the zones agree unless the first `G/E/` found is at 1..4, or at 0
and not wholly in the topic.
-/

namespace NgxPlus.Mqtt

open ByteMem

/-! ## The remaining length -/

/-- Seven bits a byte, least significant first; `fuel` bounds the number of bytes. -/
def writeRemaining : Nat → Nat → Bytes
  | 0, _ => []
  | fuel + 1, n =>
    if n / 128 > 0 then UInt8.ofNat (n % 128 ||| 0x80) :: writeRemaining fuel (n / 128)
    else [UInt8.ofNat (n % 128)]

/-- An `uint32_t` takes at most five bytes. -/
def utilityMqttWriteRemainingLeng (remainingLength : Nat) : Bytes := writeRemaining 5 remainingLength

/-- The loop's state: bytes read, `remaining_mult` and `remaining_length`. The fifth byte is
an error, so five rounds are enough. -/
def readRemaining (p : Mem) (len : Nat) : Nat → Nat → Nat → Nat → Option (Nat × Nat)
  | 0, _, _, _ => none
  | fuel + 1, count, mult, acc =>
    let byte := (p.get count).toNat
    if count + 1 = len then none
    else if count + 1 > 4 then none
    else
      let acc := (acc + (byte &&& 0x7F) * mult) % 2 ^ 32
      if byte &&& 0x80 ≠ 0 then readRemaining p len fuel (count + 1) (mult * 128 % 2 ^ 32) acc
      else some (count + 1, acc)

/-- The number of bytes read and `*out`; `none` is `NGX_ERROR`, with `*out` not written. -/
def utilityMqttReadRemainingLeng (p : Mem) (len : Nat) : Option (Nat × Nat) :=
  readRemaining p len 5 0 1 0

theorem byte_last : ∀ b < 128, (UInt8.ofNat b).toNat &&& 0x7F = b ∧ (UInt8.ofNat b).toNat &&& 0x80 = 0 := by
  decide

theorem byte_more : ∀ b < 128, (UInt8.ofNat (b ||| 0x80)).toNat &&& 0x7F = b ∧
    (UInt8.ofNat (b ||| 0x80)).toNat &&& 0x80 ≠ 0 := by decide

theorem readRemaining_last {p : Mem} {len fuel count mult acc b : Nat} (hb : b < 128)
    (hp : p.get count = UInt8.ofNat b) (hlen : count + 1 < len) (h4 : count < 4) (hacc : acc + b * mult < 2 ^ 32) :
    readRemaining p len (fuel + 1) count mult acc = some (count + 1, acc + b * mult) := by
  obtain ⟨h7, h8⟩ := byte_last b hb
  rw [readRemaining]
  simp only [hp, h7, h8, ne_eq, not_true_eq_false, if_false]
  rw [if_neg (by omega), if_neg (by omega), Nat.mod_eq_of_lt hacc]

theorem readRemaining_more {p : Mem} {len fuel count mult acc b : Nat} (hb : b < 128)
    (hp : p.get count = UInt8.ofNat (b ||| 0x80)) (hlen : count + 1 < len) (h4 : count < 4)
    (hmult : mult * 128 < 2 ^ 32) (hacc : acc + b * mult < 2 ^ 32) :
    readRemaining p len (fuel + 1) count mult acc =
      readRemaining p len fuel (count + 1) (mult * 128) (acc + b * mult) := by
  obtain ⟨h7, h8⟩ := byte_more b hb
  rw [readRemaining]
  simp only [hp, h7, if_pos h8]
  rw [if_neg (by omega), if_neg (by omega), Nat.mod_eq_of_lt hmult, Nat.mod_eq_of_lt hacc]

/-- The last byte of a length. -/
theorem readRemaining_write_last {p m : Mem} {len g fuel n count mult acc : Nat} (hn : n < 128) (hcount : count < 4)
    (hacc : acc + n * mult < 2 ^ 32) (hp : p.drop count = writeRemaining (g + 1) n ++ₛ m)
    (hlen : count + (writeRemaining (g + 1) n).length < len) :
    readRemaining p len (fuel + 1) count mult acc = some (count + (writeRemaining (g + 1) n).length, acc + n * mult) := by
  have hw : writeRemaining (g + 1) n = [UInt8.ofNat n] := by
    rw [writeRemaining, if_neg (by omega), Nat.mod_eq_of_lt hn]
  rw [hw] at hp hlen ⊢
  have hget := (Stream'.head_drop p count).symm.trans (congrArg Stream'.head hp)
  exact readRemaining_last hn hget hlen hcount hacc

/-- What is left of a length of at most four bytes, from byte `count` on. -/
theorem readRemaining_write {p m : Mem} {len : Nat} (f : Nat) {g fuel n count acc : Nat} (hg : f ≤ g) (hfuel : f ≤ fuel)
    (hn : n < 128 ^ (f + 1)) (hcount : count + f < 4) (hacc : acc + n * 128 ^ count < 2 ^ 32)
    (hp : p.drop count = writeRemaining (g + 1) n ++ₛ m) (hlen : count + (writeRemaining (g + 1) n).length < len) :
    readRemaining p len (fuel + 1) count (128 ^ count) acc =
      some (count + (writeRemaining (g + 1) n).length, acc + n * 128 ^ count) := by
  induction f generalizing g fuel n count acc with
  | zero => exact readRemaining_write_last hn hcount hacc hp hlen
  | succ f ih =>
    rcases Nat.lt_or_ge n 128 with hsmall | hbig
    · exact readRemaining_write_last hsmall (by omega) hacc hp hlen
    · obtain ⟨g, rfl⟩ : ∃ g', g = g' + 1 := ⟨g - 1, by omega⟩
      obtain ⟨fuel, rfl⟩ : ∃ fuel', fuel = fuel' + 1 := ⟨fuel - 1, by omega⟩
      have hw : writeRemaining (g + 1 + 1) n = UInt8.ofNat (n % 128 ||| 0x80) :: writeRemaining (g + 1) (n / 128) := by
        rw [writeRemaining, if_pos (by omega)]
      rw [hw] at hp hlen ⊢
      rw [List.length_cons] at hlen ⊢
      have hsum : acc + n % 128 * 128 ^ count + n / 128 * 128 ^ (count + 1) = acc + n * 128 ^ count := by
        rw [pow_succ, Nat.add_assoc, ← Nat.mul_assoc, Nat.mul_right_comm, ← Nat.add_mul, Nat.mod_add_div']
      have hmult : 128 ^ count * 128 < 2 ^ 32 := by
        calc 128 ^ count * 128 = 128 ^ (count + 1) := (pow_succ _ _).symm
          _ ≤ 128 ^ 4 := Nat.pow_le_pow_right (by decide) (by omega)
          _ < 2 ^ 32 := by decide
      have hdiv : n / 128 < 128 ^ (f + 1) := Nat.div_lt_of_lt_mul (by rw [← pow_succ']; exact hn)
      have hget := (Stream'.head_drop p count).symm.trans (congrArg Stream'.head hp)
      have htail := Stream'.tail_drop'.symm.trans (congrArg Stream'.tail hp)
      rw [readRemaining_more (Nat.mod_lt _ (by decide)) hget (by omega) (by omega) hmult (by omega), ← pow_succ,
        ih (by omega) (by omega) hdiv (by omega) (by omega) htail (by omega), hsum]
      exact congrArg some (Prod.ext (by omega) rfl)

/-- A length of at most four bytes reads back where more bytes follow it. -/
theorem readRemainingLeng_write (m : Mem) {len n : Nat} (hn : n < 2 ^ 28)
    (hlen : (utilityMqttWriteRemainingLeng n).length < len) :
    utilityMqttReadRemainingLeng (utilityMqttWriteRemainingLeng n ++ₛ m) len =
      some ((utilityMqttWriteRemainingLeng n).length, n) := by
  have hlen' : 0 + (writeRemaining (4 + 1) n).length < len := by simpa [utilityMqttWriteRemainingLeng] using hlen
  have h := readRemaining_write (p := writeRemaining (4 + 1) n ++ₛ m) 3 (by decide) (by decide : 3 ≤ 4) hn
    (by decide) (by omega : 0 + n * 128 ^ 0 < 2 ^ 32) rfl hlen'
  rw [Nat.zero_add, Nat.zero_add, pow_zero, Nat.mul_one] at h
  exact h

/-! ## The writer -/

inductive Zone
  | topicDict
  | topicExtDict
  | msgStoreDict
deriving DecidableEq, Repr

/-- A call on a zone; `num` is the `int64_t` that is passed as a `double`. -/
inductive ZoneCall
  | store (zone : Zone) (key value : Bytes)
  | updateOffset (zone : Zone) (key : Bytes) (num : Int) (flags : Nat)
deriving DecidableEq, Repr

/-- `"G/E/"`. -/
def groupExt : Bytes := [0x47, 0x2f, 0x45, 0x2f]

/-- From the memory at `key.data` on. -/
def offsetZone (keyData : Bytes) : Zone :=
  match ngxStrstr (cString keyData) groupExt with
  | none => .topicDict
  | some p => if p > 4 then .topicDict else .topicExtDict

/-- A 64-bit pattern as an `int64_t`. -/
def toInt64 (n : Nat) : Int := if n < 2 ^ 63 then n else (n : Int) - 2 ^ 64

/-- `n = msg_id` into an `int`. -/
def toInt32 (n : Int) : Int := (n + 2 ^ 31) % 2 ^ 32 - 2 ^ 31

/-- `%l`. -/
def sprintL (n : Int) : Bytes :=
  (toString n).toList.map fun c => UInt8.ofNat c.toNat

/-- One digit, and one more for each division by ten while `n >= 10`. -/
def digitCount (n : Int) : Nat := if n ≥ 10 then (Nat.toDigits 10 n.toNat).length else 1

def msgKey (key : Bytes) (msgId : Int) : Bytes :=
  (key ++ 0x2f :: sprintL msgId).take (key.length + 1 + digitCount (toInt32 msgId))

/-- The loop, at pointer `p` with `left = remaining_length - index` bytes to go. -/
def offsetLoop (mem : Bytes) (msgId : Int) : Nat → Nat → Nat → List ZoneCall
  | 0, _, _ => []
  | fuel + 1, p, left =>
    if left = 0 then []
    else
      match utilityMqttReadString (mem.drop p ++ₛ Stream'.const 0) left with
      | none => []
      | some (key, n) =>
        if n < 3 then []
        else
          let update := .updateOffset (offsetZone (mem.drop (p + 2))) key msgId luaShdictReplace
          let valueLen := left - n
          if valueLen > 0 then
            -- `n` is an `int`: a length from `2^31` on is negative.
            if valueLen < 3 ∨ 2 ^ 31 ≤ valueLen then []
            else
              -- The value is all that is left, so the loop ends here.
              .store .msgStoreDict (msgKey key msgId) ((mem.drop (p + n) ++ₛ Stream'.const 0).take valueLen) ::
                update :: offsetLoop mem msgId fuel (p + n + valueLen) (left - n - valueLen)
          else update :: offsetLoop mem msgId fuel (p + n) (left - n)

def ngxFfiMqttOffsetProcess (garbage : Nat) (mem : Bytes) (dLen : Nat) : List ZoneCall :=
  let (count, remainingLength) :=
    match utilityMqttReadRemainingLeng (mem.drop 1 ++ₛ Stream'.const 0) (sizeSub dLen 1) with
    | some r => r
    | none => (255, garbage)
  let p := 1 + count
  let msgId := toInt64 (utilityMqttReadUint64 (mem.drop p ++ₛ Stream'.const 0))
  if msgId = -1 then []
  else offsetLoop mem msgId remainingLength (p + 8) (remainingLength - 8)

/-! ## The notification -/

/-- A notification: the flags, the remaining length, the offset, the topic and the payload. -/
def notification (cmd : UInt8) (msgId : Nat) (topic payload : Bytes) : Bytes :=
  cmd :: (utilityMqttWriteRemainingLeng (10 + topic.length + payload.length) ++
    (utilityMqttWriteUint64 msgId ++ (utilityMqttWriteUint16 topic.length ++ (topic ++ payload))))

/-- What a notification does to the zones; `behind` follows its payload. -/
def notificationCalls (msgId : Nat) (topic payload behind : Bytes) : List ZoneCall :=
  if msgId = 2 ^ 64 - 1 ∨ topic = [] ∨ payload.length = 1 ∨ payload.length = 2 then []
  else
    (if payload = [] then [] else [.store .msgStoreDict (msgKey topic (toInt64 msgId)) payload]) ++
      [.updateOffset (offsetZone (topic ++ payload ++ behind)) topic (toInt64 msgId) luaShdictReplace]

theorem offsetLoop_topic (pre topic payload behind : Bytes) (msgId : Int) {fuel : Nat}
    (ht : topic.length < 65535) (hlen : payload.length < 2 ^ 28) :
    offsetLoop (pre ++ (utilityMqttWriteUint16 topic.length ++ (topic ++ (payload ++ behind)))) msgId (fuel + 2)
        pre.length (2 + topic.length + payload.length) =
      if topic = [] ∨ payload.length = 1 ∨ payload.length = 2 then []
      else
        (if payload = [] then [] else [.store .msgStoreDict (msgKey topic msgId) payload]) ++
          [.updateOffset (offsetZone (topic ++ payload ++ behind)) topic msgId luaShdictReplace] := by
  have hread : utilityMqttReadString
      (utilityMqttWriteUint16 topic.length ++ (topic ++ (payload ++ behind)) ++ₛ Stream'.const 0)
      (2 + topic.length + payload.length) = some (topic, 2 + topic.length) := by
    rw [← List.append_assoc, Stream'.append_append_stream]
    exact readString_write topic _ ht (by omega)
  have hkey : (pre ++ (utilityMqttWriteUint16 topic.length ++ (topic ++ (payload ++ behind)))).drop
      (pre.length + 2) = topic ++ payload ++ behind := by
    rw [← List.append_assoc pre, List.drop_append_of_le_length (by simp), List.append_assoc]
    simp
  have hval : (pre ++ (utilityMqttWriteUint16 topic.length ++ (topic ++ (payload ++ behind)))).drop
      (pre.length + (2 + topic.length)) = payload ++ behind := by
    rw [show pre ++ (utilityMqttWriteUint16 topic.length ++ (topic ++ (payload ++ behind))) =
      (pre ++ utilityMqttWriteUint16 topic.length ++ topic) ++ (payload ++ behind) by simp]
    rw [List.drop_append_of_le_length (by simp)]
    simp
  have htake : ((payload ++ behind) ++ₛ Stream'.const 0).take payload.length = payload := by
    rw [Stream'.append_append_stream]
    exact take_append_of_eq _ _ rfl
  rw [offsetLoop, if_neg (by omega), List.drop_left, hread]
  simp only [hkey]
  by_cases h0 : topic = []
  · subst h0; simp
  have hpos : 0 < topic.length := List.length_pos_iff.2 h0
  rw [if_neg (by omega)]
  simp only [hval, Nat.add_sub_cancel_left, htake]
  by_cases hp : payload.length = 0
  · have hnil : payload = [] := List.length_eq_zero_iff.1 hp
    subst hnil
    simp [h0, offsetLoop]
  have hne : payload ≠ [] := fun h => hp (by simp [h])
  rw [if_pos (Nat.pos_of_ne_zero hp)]
  by_cases h3 : payload.length < 3
  · rw [if_pos (Or.inl h3), if_pos (by omega)]
  · rw [if_neg (by omega), if_neg (by simp only [h0, false_or]; omega), if_neg hne]
    simp [offsetLoop]

theorem toInt64_eq_neg_one {n : Nat} (h : n < 2 ^ 64) : toInt64 n = -1 ↔ n = 2 ^ 64 - 1 := by
  unfold toInt64
  split <;> omega

/-- Where the remaining length has been read, however many bytes `w` it takes. -/
theorem offsetProcess_read (garbage : Nat) (cmd : UInt8) (w : Bytes) {msgId : Nat} {topic payload : Bytes}
    (behind : Bytes) {dLen : Nat} (hid : msgId < 2 ^ 64) (ht : topic.length < 65535) (hlen : payload.length < 2 ^ 28)
    (hrem : ∀ rest, utilityMqttReadRemainingLeng (w ++ rest ++ₛ Stream'.const 0) (sizeSub dLen 1) =
      some (w.length, 10 + topic.length + payload.length)) :
    ngxFfiMqttOffsetProcess garbage ((cmd :: w) ++ (utilityMqttWriteUint64 msgId ++
        (utilityMqttWriteUint16 topic.length ++ (topic ++ (payload ++ behind))))) dLen =
      notificationCalls msgId topic payload behind := by
  have hmsg : utilityMqttReadUint64 (((cmd :: w) ++ (utilityMqttWriteUint64 msgId ++
      (utilityMqttWriteUint16 topic.length ++ (topic ++ (payload ++ behind))))).drop (1 + w.length) ++ₛ
        Stream'.const 0) = msgId := by
    rw [List.drop_left' (by simp [Nat.add_comm]), Stream'.append_append_stream, readUint64_write,
      Nat.mod_eq_of_lt hid]
  unfold ngxFfiMqttOffsetProcess notificationCalls
  rw [List.cons_append, List.drop_succ_cons, List.drop_zero, hrem, ← List.cons_append]
  simp only [hmsg, toInt64_eq_neg_one hid]
  by_cases hm : msgId = 2 ^ 64 - 1
  · rw [if_pos hm, if_pos (Or.inl hm)]
  · have hpre : 1 + w.length + 8 = ((cmd :: w) ++ utilityMqttWriteUint64 msgId).length := by
      simp; omega
    have hleft : 10 + topic.length + payload.length - 8 = 2 + topic.length + payload.length := by omega
    have hfuel : 10 + topic.length + payload.length = (8 + topic.length + payload.length) + 2 := by omega
    rw [if_neg hm, ← List.append_assoc, hpre, hleft, hfuel, offsetLoop_topic _ _ _ _ _ ht hlen]
    simp only [hm, false_or]

/-- `behind` is what follows the notification: the rest of the Lua string, its NUL, and on. -/
theorem offsetProcess_notification (garbage : Nat) (cmd : UInt8) {msgId : Nat} {topic payload : Bytes}
    (behind : Bytes) {dLen : Nat} (hid : msgId < 2 ^ 64) (ht : topic.length < 65535)
    (hlen : 10 + topic.length + payload.length < 2 ^ 28)
    (hd : (notification cmd msgId topic payload).length ≤ dLen) :
    ngxFfiMqttOffsetProcess garbage (notification cmd msgId topic payload ++ behind) dLen =
      notificationCalls msgId topic payload behind := by
  generalize hw : utilityMqttWriteRemainingLeng (10 + topic.length + payload.length) = w
  have hmem : notification cmd msgId topic payload ++ behind = (cmd :: w) ++
      (utilityMqttWriteUint64 msgId ++ (utilityMqttWriteUint16 topic.length ++ (topic ++ (payload ++ behind)))) := by
    simp [notification, hw]
  have hdlen : w.length < sizeSub dLen 1 := by
    simp only [notification, hw, List.length_cons, List.length_append, length_writeUint64,
      length_writeUint16] at hd
    rw [sizeSub_of_le (by omega)]
    omega
  rw [hmem]
  refine offsetProcess_read garbage cmd w behind hid ht (by omega) fun rest => ?_
  rw [Stream'.append_append_stream, ← hw]
  exact readRemainingLeng_write _ hlen (by rw [hw]; exact hdlen)

/-! ## The readers -/

def subscribeStore (subTopic : Bytes) : Zone :=
  let indexOf := luaUtilityIndexOf subTopic groupExt
  if ngxMqttTopicIsExpression subTopic then
    -- `shdictName`, for `shdict_get2mqtt`
    if indexOf ≠ 0 then .topicDict else .topicExtDict
  else
    -- `topicStore`
    if indexOf ≠ 0 then .topicDict else .topicExtDict

def pubackStore (topic : Bytes) : Zone :=
  let indexOf := luaUtilityIndexOf topic groupExt
  if indexOf ≠ 0 then .topicDict else .topicExtDict

theorem subscribeStore_eq (sub : Bytes) : subscribeStore sub = pubackStore sub := by
  simp [subscribeStore, pubackStore]

theorem pubackStore_eq (topic : Bytes) :
    pubackStore topic = if groupExt <+: cString topic then .topicExtDict else .topicDict := by
  have hg : cString groupExt = groupExt := by decide
  have h := luaUtilityIndexOf_eq_zero topic groupExt
  rw [hg] at h
  by_cases hi : luaUtilityIndexOf topic groupExt = 0
  · simp [pubackStore, hi, h.1 hi]
  · simp [pubackStore, hi, mt h.2 hi]

theorem pubackStore_eq_iff (a b : Bytes) :
    pubackStore a = pubackStore b ↔ (groupExt <+: cString a ↔ groupExt <+: cString b) := by
  rw [pubackStore_eq, pubackStore_eq]
  by_cases ha : groupExt <+: cString a <;> by_cases hb : groupExt <+: cString b <;> simp [ha, hb]

/-- The writer's zone is the readers' zone for the topic, by where the first `G/E/` is found. -/
theorem offsetZone_eq_pubackStore {topic behind : Bytes} (h0 : 0 ∉ topic) :
    offsetZone (topic ++ behind) = pubackStore topic ↔
      ∀ i ≤ 4, ngxStrstr (topic ++ cString behind) groupExt = some i → i = 0 ∧ 4 ≤ topic.length := by
  have hpre : groupExt <+: topic → ngxStrstr (topic ++ cString behind) groupExt = some 0 := fun h =>
    ngxStrstr_eq_zero.2 (h.trans (List.prefix_append _ _))
  unfold offsetZone
  rw [pubackStore_eq, cString_append h0, cString_eq_self h0]
  cases hs : ngxStrstr (topic ++ cString behind) groupExt with
  | none =>
    have : ¬ groupExt <+: topic := fun h => by rw [hpre h] at hs; cases hs
    simp [this]
  | some p =>
    by_cases hp : p > 4
    · have : ¬ groupExt <+: topic := fun h => by
        rw [hpre h] at hs
        have := Option.some.inj hs
        omega
      simp only [if_pos hp, if_neg this, Option.some.injEq, true_iff]
      intro i hi hpi
      omega
    · simp only [if_neg hp, Option.some.injEq]
      constructor
      · rintro he i - rfl
        have hpt : groupExt <+: topic := by
          by_contra hn
          simp [hn] at he
        rw [hpre hpt] at hs
        exact ⟨(Option.some.inj hs).symm, hpt.length_le⟩
      · intro h
        obtain ⟨rfl, h4⟩ := h p (by omega) rfl
        have hw := ngxStrstr_eq_zero.1 hs
        rw [if_pos (List.prefix_of_prefix_length_le hw (List.prefix_append _ _) h4)]

/-- The zones of a notification's offset are those the two readers look the topic up in. -/
def SameStore (calls : List ZoneCall) (topic subTopic : Bytes) : Prop :=
  ∀ zone num flags, .updateOffset zone topic num flags ∈ calls →
    zone = subscribeStore subTopic ∧ zone = pubackStore topic

/-- A notification writes no offset for an empty topic or a payload of one or two bytes, nor
for the offset -1. -/
def OffsetWritten (msgId : Nat) (topic payload : Bytes) : Prop :=
  msgId ≠ 2 ^ 64 - 1 ∧ topic ≠ [] ∧ payload.length ≠ 1 ∧ payload.length ≠ 2

/-- **One dictionary for writer and readers**, exactly when no `G/E/` is found first at 1..4,
nor at 0 and running out of the topic into what follows it; and, for a reader that subscribes
by a wildcard, when its filter begins with `G/E/` just as the topic does. -/
theorem writer_readers_same_dict (garbage : Nat) (cmd : UInt8) {msgId : Nat} {topic payload : Bytes}
    (rest behind subTopic : Bytes) (h0 : 0 ∉ topic) (hid : msgId < 2 ^ 64) (ht : topic.length < 65535)
    (hlen : 10 + topic.length + payload.length < 2 ^ 28) :
    SameStore (ngxFfiMqttOffsetProcess garbage (notification cmd msgId topic payload ++ (rest ++ 0 :: behind))
        (notification cmd msgId topic payload ++ rest).length) topic subTopic ↔
      (OffsetWritten msgId topic payload →
        (∀ i ≤ 4, ngxStrstr (topic ++ cString (payload ++ rest)) groupExt = some i → i = 0 ∧ 4 ≤ topic.length) ∧
          (groupExt <+: cString subTopic ↔ groupExt <+: topic)) := by
  have hcut : cString (payload ++ (rest ++ 0 :: behind)) = cString (payload ++ rest) := by
    rw [← List.append_assoc, cString_append_nul]
  rw [offsetProcess_notification _ _ _ hid ht hlen (by simp), ← hcut, ← offsetZone_eq_pubackStore h0]
  have hsub : (groupExt <+: cString subTopic ↔ groupExt <+: topic) ↔ subscribeStore subTopic = pubackStore topic := by
    rw [subscribeStore_eq, pubackStore_eq_iff, cString_eq_self h0]
  rw [hsub]
  unfold SameStore notificationCalls OffsetWritten
  by_cases hw : msgId = 2 ^ 64 - 1 ∨ topic = [] ∨ payload.length = 1 ∨ payload.length = 2
  · rw [if_pos hw]
    constructor
    · rintro - ⟨h1, h2, h3, h4⟩
      tauto
    · rintro - zone num flags hmem
      simp at hmem
  · rw [if_neg hw]
    have : msgId ≠ 2 ^ 64 - 1 ∧ topic ≠ [] ∧ payload.length ≠ 1 ∧ payload.length ≠ 2 := by tauto
    constructor
    · intro h _
      have hz := h _ _ _ (List.mem_append_right _ (List.mem_singleton_self _))
      rw [List.append_assoc] at hz
      exact ⟨hz.2, hz.1.symm.trans hz.2⟩
    · intro h zone num flags hmem
      obtain ⟨h1, h2⟩ := h this
      rw [← List.append_assoc] at h1
      rcases List.mem_append.1 hmem with hm | hm
      · split at hm <;> simp at hm
      · simp only [List.mem_singleton, ZoneCall.updateOffset.injEq] at hm
        obtain ⟨rfl, -⟩ := hm
        exact ⟨h1.trans h2.symm, h1⟩

/-- `G/E/1`, with a payload: both read and write the extension dictionary. -/
theorem same_dict_group_ext :
    (0 : UInt8) ∉ [0x47, 0x2f, 0x45, 0x2f, 0x31] ∧
      SameStore (ngxFfiMqttOffsetProcess 0 (notification 0x32 7 [0x47, 0x2f, 0x45, 0x2f, 0x31] [1, 2, 3] ++ ([] ++ 0 :: []))
        (notification 0x32 7 [0x47, 0x2f, 0x45, 0x2f, 0x31] [1, 2, 3] ++ []).length)
        [0x47, 0x2f, 0x45, 0x2f, 0x31] [0x47, 0x2f, 0x45, 0x2f, 0x31] := by
  refine ⟨by decide, (writer_readers_same_dict 0 0x32 [] [] _ (by decide) (by decide) (by decide) (by decide)).2
    fun _ => ⟨?_, by decide⟩⟩
  intro i _ hi
  exact ⟨(Option.some.inj hi).symm, by decide⟩

/-- `a/G/E/1` is written to the extension dictionary and read from the other. -/
theorem inner_group_ext_differs :
    ¬ SameStore (ngxFfiMqttOffsetProcess 0
        (notification 0x32 7 [0x61, 0x2f, 0x47, 0x2f, 0x45, 0x2f, 0x31] [1, 2, 3] ++ ([] ++ 0 :: []))
        (notification 0x32 7 [0x61, 0x2f, 0x47, 0x2f, 0x45, 0x2f, 0x31] [1, 2, 3] ++ []).length)
      [0x61, 0x2f, 0x47, 0x2f, 0x45, 0x2f, 0x31] [0x61, 0x2f, 0x47, 0x2f, 0x45, 0x2f, 0x31] := by
  intro h
  have hw := h .topicExtDict 7 luaShdictReplace (by decide +kernel)
  exact absurd hw.2 (by decide)

end NgxPlus.Mqtt
