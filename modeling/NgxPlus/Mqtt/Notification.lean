import NgxPlus.Mqtt.Envelope
import NgxPlus.Mqtt.OffsetProcess
import NgxPlus.Mqtt.ShdictInv

/-!
# Processing a notification

What `ngx_ffi_mqtt_offset_process` is to do with its buffer: to offer the id of a `Notification` as
the offset of its topic and to store its payload under `topic/id`, the key that `process_subscribe`
reads (`mqtt_server_module.lua:281`), and nothing with a buffer that announces no length or more
bytes than it has (`BadLength`).

`processes_iff`: it does so except for payloads of one and two bytes, which end its loop, keys too
long for a dictionary, and what stands by chance where it looks for an id and a topic
(`TakenAsNotification`): neither an error of `utility_mqtt_read_remaining_leng` nor the end of the
buffer keeps it from looking there.
-/

namespace NgxPlus.Mqtt

open ByteMem

/-! ## The remaining length -/

/-- Seven bits a byte, least significant first; the last byte is the one without the high bit. -/
def fieldValue : Bytes → Option Nat
  | [] => none
  | b :: bs =>
    if b.toNat &&& 0x80 ≠ 0 then (fieldValue bs).map fun n => (b.toNat &&& 0x7F) + 128 * n
    else if bs = [] then some (b.toNat &&& 0x7F) else none

/-- A remaining-length field of `n`. -/
def IsField (field : Bytes) (n : Nat) : Prop := field.length ≤ 4 ∧ fieldValue field = some n

theorem and_0x7F_lt (n : Nat) : n &&& 0x7F < 128 := lt_of_le_of_lt Nat.and_le_right (by decide)

theorem fieldValue_lt {field : Bytes} {n : Nat} (h : fieldValue field = some n) : n < 128 ^ field.length := by
  induction field generalizing n with
  | nil => cases h
  | cons b bs ih =>
    have hd := and_0x7F_lt b.toNat
    rw [fieldValue] at h
    rw [List.length_cons, pow_succ]
    split at h
    · obtain ⟨k, hk, rfl⟩ := Option.map_eq_some_iff.1 h
      have := ih hk
      omega
    · split at h
      · next hlast =>
        rw [← Option.some.inj h, hlast]
        simpa using hd
      · cases h

theorem IsField.lt {field : Bytes} {n : Nat} (h : IsField field n) : n < 2 ^ 28 :=
  lt_of_lt_of_le (fieldValue_lt h.2) (Nat.pow_le_pow_right (n := 128) (by decide) h.1)

theorem readRemaining_field {p m : Mem} {len : Nat} {field : Bytes} {n fuel count acc : Nat}
    (h : fieldValue field = some n) (hcount : count + field.length ≤ 4) (hfuel : field.length ≤ fuel)
    (hacc : acc < 128 ^ count) (hp : p.drop count = field ++ₛ m) (hlen : count + field.length < len) :
    readRemaining p len fuel count (128 ^ count) acc = some (count + field.length, acc + n * 128 ^ count) := by
  induction field generalizing n fuel count acc with
  | nil => cases h
  | cons b bs ih =>
    rw [List.length_cons] at hcount hfuel hlen
    obtain ⟨fuel, rfl⟩ : ∃ k, fuel = k + 1 := Nat.exists_eq_add_one.2 (by omega)
    have hget : p.get count = b := (Stream'.head_drop p count).symm.trans (congrArg Stream'.head hp)
    have htail : p.drop (count + 1) = bs ++ₛ m := Stream'.tail_drop'.symm.trans (congrArg Stream'.tail hp)
    have hd := and_0x7F_lt b.toNat
    have hpow : 128 ^ (count + 1) ≤ 128 ^ 4 := Nat.pow_le_pow_right (by decide) (by omega)
    have hpos : 0 < 128 ^ count := Nat.pow_pos (by decide)
    have hdigit : (b.toNat &&& 0x7F) * 128 ^ count ≤ 127 * 128 ^ count := Nat.mul_le_mul_right _ (by omega)
    have hsum : acc + (b.toNat &&& 0x7F) * 128 ^ count < 128 ^ (count + 1) := by
      rw [pow_succ]
      omega
    have hmod : (acc + (b.toNat &&& 0x7F) * 128 ^ count) % 2 ^ 32 = acc + (b.toNat &&& 0x7F) * 128 ^ count :=
      Nat.mod_eq_of_lt (by omega)
    have hmult : 128 ^ count * 128 % 2 ^ 32 = 128 ^ (count + 1) := by
      rw [← pow_succ]
      exact Nat.mod_eq_of_lt (by omega)
    rw [fieldValue] at h
    rw [readRemaining]
    simp only [hget, hmod, hmult]
    rw [if_neg (by omega), if_neg (by omega)]
    by_cases hmore : b.toNat &&& 0x80 ≠ 0
    · rw [if_pos hmore] at h ⊢
      obtain ⟨k, hk, rfl⟩ := Option.map_eq_some_iff.1 h
      rw [ih hk (by omega) (by omega) hsum htail (by omega), List.length_cons]
      congr 2
      · omega
      · rw [pow_succ]
        ring
    · rw [if_neg hmore] at h ⊢
      by_cases hlast : bs = []
      · subst hlast
        rw [if_pos rfl] at h
        obtain rfl := Option.some.inj h
        rfl
      · rw [if_neg hlast] at h
        cases h

theorem readRemainingLeng_field {field : Bytes} {n : Nat} (h : IsField field n) (m : Mem) {len : Nat}
    (hlen : field.length < len) : utilityMqttReadRemainingLeng (field ++ₛ m) len = some (field.length, n) := by
  obtain ⟨hshort, hvalue⟩ := h
  have hlen' : 0 + field.length < len := by omega
  have hread := readRemaining_field (p := field ++ₛ m) hvalue (by omega : 0 + field.length ≤ 4)
    (by omega : field.length ≤ 5) (by decide : 0 < 128 ^ 0) rfl hlen'
  rw [Nat.zero_add, Nat.zero_add, pow_zero, Nat.mul_one] at hread
  exact hread

/-! ## What is to be done -/

/-- A well-formed notification, with its remaining length written in any way. -/
structure Notification where
  cmd : UInt8
  field : Bytes
  id : Nat
  topic : Bytes
  payload : Bytes
  id_pos : 1 ≤ id
  id_le : id ≤ intMaxRing
  topic_pos : 1 ≤ topic.length
  topic_le : topic.length ≤ 65534
  isField : IsField field (10 + topic.length + payload.length)

namespace Notification

variable (N : Notification)

def bytes : Bytes :=
  (N.cmd :: N.field) ++
    (utilityMqttWriteUint64 N.id ++ (utilityMqttWriteUint16 N.topic.length ++ (N.topic ++ N.payload)))

/-- `topic.."/"..id` -/
def key : Bytes := N.topic ++ 0x2f :: decimal N.id

/-- The payload, where there is one, and the offset; which dictionary it goes to is decided by what
follows the topic. -/
def calls (behind : Bytes) : List ZoneCall :=
  (if N.payload = [] then [] else [.store .msgStoreDict N.key N.payload]) ++
    [.updateOffset (offsetZone (N.topic ++ N.payload ++ behind)) N.topic N.id luaShdictReplace]

end Notification

def ZoneCall.key : ZoneCall → Bytes
  | .store _ key _ => key
  | .updateOffset _ key _ _ => key

/-- `ngx_mqtt_shdict_store` and `ngx_mqtt_shdict_update_offset` refuse other keys. -/
def ZoneCall.KeyFits (c : ZoneCall) : Prop := 1 ≤ c.key.length ∧ c.key.length ≤ 65535

abbrev Zones := Zone → Shzone

/-- What a call does to the dictionaries; `double` makes the eight bytes of `(double) msg_id`. -/
def ZoneCall.apply (double : Int → Bytes) (now : Nat) (alloc : Nat → Bool) (zones : Zones) : ZoneCall → Zones
  | .store zone key value =>
    Function.update zones zone (ngxMqttShdictStore (zones zone) now alloc key (some ⟨value, Stream'.const 0⟩)).zone
  | .updateOffset zone key num flags =>
    Function.update zones zone
      (ngxMqttShdictUpdateOffset (zones zone) now alloc key (some ⟨double num, Stream'.const 0⟩) flags).zone

/-- No remaining length, or one of more bytes than there are. -/
def BadLength (buffer : Bytes) : Prop :=
  ¬ ∃ cmd field n rest, buffer = cmd :: (field ++ rest) ∧ IsField field n ∧ n ≤ rest.length

/-- The buffer is processed as it should be, with `behind` behind it in memory. -/
structure Processes (garbage : Nat) (buffer behind : Bytes) : Prop where
  notification : ∀ N : Notification, buffer = N.bytes →
    ngxFfiMqttOffsetProcess garbage (buffer ++ behind) buffer.length = N.calls behind ∧
      ∀ c ∈ N.calls behind, c.KeyFits
  badLength : BadLength buffer → ∀ double now alloc zones,
    (ngxFfiMqttOffsetProcess garbage (buffer ++ behind) buffer.length).foldl (ZoneCall.apply double now alloc) zones =
      zones

theorem refused {c : ZoneCall} (h : ¬ c.KeyFits) (double : Int → Bytes) (now : Nat) (alloc : Nat → Bool)
    (zones : Zones) : c.apply double now alloc zones = zones := by
  have hkey : c.key.length = 0 ∨ c.key.length > 65535 := by
    rw [ZoneCall.KeyFits] at h
    omega
  cases c with
  | store zone key value =>
    rw [ZoneCall.key] at hkey
    rw [ZoneCall.apply, ngxMqttShdictStore, if_pos hkey, Function.update_eq_self]
  | updateOffset zone key num flags =>
    rw [ZoneCall.key] at hkey
    rw [ZoneCall.apply, ngxMqttShdictUpdateOffset, if_pos hkey, Function.update_eq_self]

/-! ## What is done -/

/-- The number at `p`, where the loop looks for the length of a topic. -/
def topicLength (mem : Bytes) (p left : Nat) : Nat := utilityMqttReadUint16 (mem.drop p ++ₛ Stream'.const 0) left

/-- A topic of 1 to 65534 bytes stands there, and what is left behind it is nothing or three bytes
and more. -/
structure TakesTopic (mem : Bytes) (p left : Nat) : Prop where
  topic : 1 ≤ topicLength mem p left ∧ topicLength mem p left < 65535
  fits : 2 + topicLength mem p left ≤ left
  payload : left - (2 + topicLength mem p left) ≠ 1 ∧ left - (2 + topicLength mem p left) ≠ 2 ∧
    left - (2 + topicLength mem p left) < 2 ^ 31

theorem offsetLoop_zero (mem : Bytes) (msgId : Int) (fuel p : Nat) : offsetLoop mem msgId fuel p 0 = [] := by
  cases fuel <;> simp [offsetLoop]

theorem two_le_of_topicLength {mem : Bytes} {p left : Nat} (h : topicLength mem p left < 65535) : 2 ≤ left := by
  rw [topicLength, utilityMqttReadUint16] at h
  by_contra hlt
  rw [if_pos (by omega)] at h
  omega

theorem topicLength_le (mem : Bytes) (p left : Nat) : topicLength mem p left ≤ 65535 := by
  have h0 := ((mem.drop p ++ₛ Stream'.const 0).get 0).toNat_lt
  have h1 := ((mem.drop p ++ₛ Stream'.const 0).get 1).toNat_lt
  rw [topicLength, utilityMqttReadUint16, Nat.shiftLeft_eq]
  split <;> omega

theorem readString_topic {mem : Bytes} {p left : Nat} (h : topicLength mem p left < 65535)
    (hfits : 2 + topicLength mem p left ≤ left) :
    ∃ key, key.length = topicLength mem p left ∧
      utilityMqttReadString (mem.drop p ++ₛ Stream'.const 0) left = some (key, 2 + topicLength mem p left) := by
  have hsub : sizeSub left 2 = left - 2 := sizeSub_of_le (two_le_of_topicLength h)
  refine ⟨((mem.drop p ++ₛ Stream'.const 0).drop 2).take (topicLength mem p left), Stream'.length_take _ _, ?_⟩
  have hlen : utilityMqttReadUint16 (mem.drop p ++ₛ Stream'.const 0) left = topicLength mem p left := rfl
  rw [utilityMqttReadString]
  simp only [hsub, hlen]
  rw [if_neg (by omega), if_neg (by omega)]

theorem readString_none {mem : Bytes} {p left : Nat}
    (h : topicLength mem p left = 65535 ∨ left < 2 + topicLength mem p left) :
    utilityMqttReadString (mem.drop p ++ₛ Stream'.const 0) left = none := by
  have hlen : utilityMqttReadUint16 (mem.drop p ++ₛ Stream'.const 0) left = topicLength mem p left := rfl
  rw [utilityMqttReadString]
  simp only [hlen]
  by_cases hmax : topicLength mem p left = 65535
  · rw [if_pos hmax]
  · have hle := topicLength_le mem p left
    have h2 := two_le_of_topicLength (lt_of_le_of_ne hle hmax)
    rw [if_neg hmax, sizeSub_of_le h2, if_pos (by omega)]

theorem offsetZone_ne_msgStoreDict (keyData : Bytes) : offsetZone keyData ≠ .msgStoreDict := by
  rw [offsetZone]
  split
  · decide
  · split <;> decide

/-- Stores of messages, then an offset for a key that is taken. -/
def EndsWithOffset (calls : List ZoneCall) : Prop :=
  ∃ stores zone key num, calls = stores ++ [.updateOffset zone key num luaShdictReplace] ∧
    (∀ c ∈ stores, ∃ k v, c = .store .msgStoreDict k v) ∧ zone ≠ .msgStoreDict ∧ 1 ≤ key.length ∧ key.length ≤ 65535

theorem offsetLoop_taken {mem : Bytes} {p left : Nat} (h : TakesTopic mem p left) (msgId : Int) (fuel : Nat) :
    EndsWithOffset (offsetLoop mem msgId (fuel + 1) p left) := by
  obtain ⟨⟨hpos, hlt⟩, hfits, h1, h2, h31⟩ := h
  obtain ⟨key, hkey, hread⟩ := readString_topic hlt hfits
  have hzone := offsetZone_ne_msgStoreDict (mem.drop (p + 2))
  rw [offsetLoop, if_neg (by omega), hread]
  simp only
  rw [if_neg (by omega)]
  by_cases hrest : left - (2 + topicLength mem p left) > 0
  · rw [if_pos hrest, if_neg (by omega), Nat.sub_self, offsetLoop_zero]
    refine ⟨[_], _, key, msgId, rfl, ?_, hzone, by omega, by omega⟩
    intro c hc
    exact ⟨_, _, List.mem_singleton.1 hc⟩
  · have hzero : left - (2 + topicLength mem p left) = 0 := by omega
    rw [if_neg hrest, hzero, offsetLoop_zero]
    exact ⟨[], _, key, msgId, rfl, by simp, hzone, by omega, by omega⟩

theorem offsetLoop_not_taken {mem : Bytes} {p left : Nat} (h : ¬ TakesTopic mem p left) (msgId : Int) (fuel : Nat) :
    offsetLoop mem msgId fuel p left = [] := by
  cases fuel with
  | zero => rfl
  | succ fuel =>
    rw [offsetLoop]
    by_cases hleft : left = 0
    · rw [if_pos hleft]
    rw [if_neg hleft]
    by_cases hread : topicLength mem p left = 65535 ∨ left < 2 + topicLength mem p left
    · rw [readString_none hread]
    rw [not_or] at hread
    have hlt := lt_of_le_of_ne (topicLength_le mem p left) hread.1
    obtain ⟨key, hkey, hread'⟩ := readString_topic hlt (by omega)
    rw [hread']
    simp only
    by_cases hempty : topicLength mem p left = 0
    · rw [if_pos (by omega)]
    · have hbad : left - (2 + topicLength mem p left) = 1 ∨ left - (2 + topicLength mem p left) = 2 ∨
          2 ^ 31 ≤ left - (2 + topicLength mem p left) := by
        by_contra hgood
        exact h ⟨⟨by omega, hlt⟩, by omega, by omega, by omega, by omega⟩
      rw [if_neg (by omega), if_pos (by omega), if_pos (by omega)]

/-! ## Buffers without a length -/

/-- Behind the bytes counted for the remaining length stands an id other than -1, then a topic. -/
def TakenAsNotification (garbage : Nat) (mem : Bytes) (dLen : Nat) : Prop :=
  let (count, remainingLength) :=
    (utilityMqttReadRemainingLeng (mem.drop 1 ++ₛ Stream'.const 0) (sizeSub dLen 1)).getD (255, garbage)
  toInt64 (utilityMqttReadUint64 (mem.drop (1 + count) ++ₛ Stream'.const 0)) ≠ -1 ∧
    TakesTopic mem (1 + count + 8) (remainingLength - 8)

theorem process_eq (garbage : Nat) (mem : Bytes) (dLen : Nat) :
    ngxFfiMqttOffsetProcess garbage mem dLen =
      let (count, remainingLength) :=
        (utilityMqttReadRemainingLeng (mem.drop 1 ++ₛ Stream'.const 0) (sizeSub dLen 1)).getD (255, garbage)
      let msgId := toInt64 (utilityMqttReadUint64 (mem.drop (1 + count) ++ₛ Stream'.const 0))
      if msgId = -1 then [] else offsetLoop mem msgId remainingLength (1 + count + 8) (remainingLength - 8) := by
  rw [ngxFfiMqttOffsetProcess]
  cases utilityMqttReadRemainingLeng (mem.drop 1 ++ₛ Stream'.const 0) (sizeSub dLen 1) with
  | none => rfl
  | some r => rfl

theorem process_not_taken {garbage : Nat} {mem : Bytes} {dLen : Nat} (h : ¬ TakenAsNotification garbage mem dLen) :
    ngxFfiMqttOffsetProcess garbage mem dLen = [] := by
  rw [process_eq]
  rw [TakenAsNotification] at h
  cases hr : (utilityMqttReadRemainingLeng (mem.drop 1 ++ₛ Stream'.const 0) (sizeSub dLen 1)).getD (255, garbage) with
  | mk count remainingLength =>
    simp only [hr] at h ⊢
    by_cases hid : toInt64 (utilityMqttReadUint64 (mem.drop (1 + count) ++ₛ Stream'.const 0)) = -1
    · rw [if_pos hid]
    · rw [if_neg hid]
      exact offsetLoop_not_taken (fun ht => h ⟨hid, ht⟩) _ _

theorem process_taken {garbage : Nat} {mem : Bytes} {dLen : Nat} (h : TakenAsNotification garbage mem dLen) :
    EndsWithOffset (ngxFfiMqttOffsetProcess garbage mem dLen) := by
  rw [process_eq]
  rw [TakenAsNotification] at h
  cases hr : (utilityMqttReadRemainingLeng (mem.drop 1 ++ₛ Stream'.const 0) (sizeSub dLen 1)).getD (255, garbage) with
  | mk count remainingLength =>
    simp only [hr] at h ⊢
    obtain ⟨hid, ht⟩ := h
    have h2 := two_le_of_topicLength ht.topic.2
    obtain ⟨fuel, rfl⟩ : ∃ k, remainingLength = k + 1 := Nat.exists_eq_add_one.2 (by omega)
    rw [if_neg hid]
    exact offsetLoop_taken ht _ fuel

/-- A first offset goes into an empty dictionary. -/
theorem next_updateOffset {key value : Bytes} (h1 : 1 ≤ key.length) (h2 : key.length ≤ 65535)
    (hvalue : value.length < 2 ^ 28) (heap : NodeKey → ShdictNode) (now : Nat) (behind : Mem) :
    (ngxMqttShdictUpdateOffset (.init heap) now (fun _ => true) key (some ⟨value, behind⟩) luaShdictReplace).zone.next =
      1 := by
  have hkey : ¬ (key.length = 0 ∨ key.length > 65535) := by omega
  have hfree : (Shzone.init heap).locked = false := rfl
  have henter : enter (.init heap) now key = (.init heap, .declined) := rfl
  have hflag : luaShdictReplace &&& luaShdictReplace ≠ 0 := by decide
  have hsize : 0 ≤ allocSize key value := by
    rw [allocSize, nodeHeader]
    omega
  rw [ngxMqttShdictUpdateOffset, if_neg hkey, hfree]
  simp only [Bool.false_eq_true, if_false, henter, updateGoto, if_pos hflag, labelInsert, allocNode, slabAlloc,
    decide_eq_true hsize, Bool.and_self, if_true]
  rfl

theorem apply_stores {stores : List ZoneCall} (h : ∀ c ∈ stores, ∃ k v, c = .store .msgStoreDict k v)
    (double : Int → Bytes) (now : Nat) (alloc : Nat → Bool) (zones : Zones) {zone : Zone} (hz : zone ≠ .msgStoreDict) :
    stores.foldl (ZoneCall.apply double now alloc) zones zone = zones zone := by
  induction stores generalizing zones with
  | nil => rfl
  | cons c stores ih =>
    rw [List.forall_mem_cons] at h
    obtain ⟨⟨k, v, rfl⟩, hrest⟩ := h
    rw [List.foldl_cons, ih hrest, ZoneCall.apply, Function.update_of_ne hz]

theorem changes_of_endsWithOffset {calls : List ZoneCall} (h : EndsWithOffset calls) :
    ∃ double now alloc, ∃ zones : Zones, calls.foldl (ZoneCall.apply double now alloc) zones ≠ zones := by
  obtain ⟨stores, zone, key, num, rfl, hstores, hzone, h1, h2⟩ := h
  refine ⟨fun _ => [], 0, fun _ => true, fun _ => .init blank, fun he => ?_⟩
  rw [List.foldl_append, List.foldl_cons, List.foldl_nil] at he
  have hat := congrFun he zone
  rw [ZoneCall.apply, Function.update_self, apply_stores hstores _ _ _ _ hzone] at hat
  have hempty : ([] : Bytes).length < 2 ^ 28 := by decide
  have hnext := next_updateOffset h1 h2 hempty blank 0 (Stream'.const 0)
  rw [hat] at hnext
  cases hnext

/-! ## Notifications -/

theorem sprintL_eq_decimal (n : Nat) : sprintL n = decimal n := by
  have hstring : (toString (n : Int)).toList = Nat.toDigits 10 n := by
    simp [toString, Int.repr, Nat.repr]
  rw [sprintL, decimal, hstring]

theorem digitCount_eq (n : Nat) : digitCount n = (decimal n).length := by
  rw [digitCount, decimal, List.length_map, Int.toNat_natCast]
  split
  · rfl
  · next hlt =>
    have hone : (Nat.toDigits 10 n).length ≤ 1 := (Nat.length_toDigits_le_iff (by decide) (by decide)).2 (by omega)
    have hpos : 0 < (Nat.toDigits 10 n).length := Nat.length_toDigits_pos
    omega

theorem toInt64_of_lt {n : Nat} (h : n < 2 ^ 63) : toInt64 n = n := by
  rw [toInt64, if_pos h]

namespace Notification

variable (N : Notification)

theorem id_lt : N.id < 2 ^ 31 := lt_of_le_of_lt N.id_le (by decide)

theorem toInt64_id : toInt64 N.id = N.id := toInt64_of_lt (by have := N.id_lt; omega)

theorem msgKey_eq : msgKey N.topic N.id = N.key := by
  have hint : toInt32 N.id = N.id := by
    have := N.id_lt
    rw [toInt32]
    omega
  rw [msgKey, key, hint, sprintL_eq_decimal, digitCount_eq]
  exact List.take_of_length_le (by rw [List.length_append, List.length_cons]; omega)

theorem process_bytes (garbage : Nat) (behind : Bytes) :
    ngxFfiMqttOffsetProcess garbage (N.bytes ++ behind) N.bytes.length =
      if N.payload.length = 1 ∨ N.payload.length = 2 then [] else N.calls behind := by
  have htopic : N.topic ≠ [] := List.ne_nil_of_length_pos N.topic_pos
  have hid : ¬ N.id = 2 ^ 64 - 1 := by
    have := N.id_lt
    omega
  have hlen := N.isField.lt
  have hmem : N.bytes ++ behind = (N.cmd :: N.field) ++ (utilityMqttWriteUint64 N.id ++
      (utilityMqttWriteUint16 N.topic.length ++ (N.topic ++ (N.payload ++ behind)))) := by
    simp [bytes]
  have hsize : N.field.length < sizeSub N.bytes.length 1 := by
    have hcount : N.bytes.length = 1 + N.field.length + (10 + N.topic.length + N.payload.length) := by
      simp [bytes]
      omega
    rw [sizeSub_of_le (by omega)]
    omega
  rw [hmem, offsetProcess_read garbage N.cmd N.field behind (by have := N.id_lt; omega)
    (by have := N.topic_le; omega) (by omega)]
  · rw [notificationCalls, calls, N.toInt64_id, N.msgKey_eq]
    simp only [hid, htopic, false_or]
  · intro rest
    rw [Stream'.append_append_stream]
    exact readRemainingLeng_field N.isField _ hsize

theorem calls_ne_nil (behind : Bytes) : N.calls behind ≠ [] := by
  rw [calls]
  simp

/-- A dictionary takes the topic; it takes the key of the payload where that is not too long. -/
theorem keysFit_iff (behind : Bytes) :
    (∀ c ∈ N.calls behind, c.KeyFits) ↔ N.payload = [] ∨ N.key.length ≤ 65535 := by
  have htopic : 1 ≤ N.topic.length ∧ N.topic.length ≤ 65535 := ⟨N.topic_pos, by have := N.topic_le; omega⟩
  have hkey : 1 ≤ N.key.length := by
    rw [key, List.length_append, List.length_cons]
    omega
  rw [calls]
  by_cases hp : N.payload = []
  · simp [hp, ZoneCall.KeyFits, ZoneCall.key, htopic]
  · simp [hp, ZoneCall.KeyFits, ZoneCall.key, htopic, hkey]

end Notification

/-- **Notifications**: a buffer is processed as it should be, exactly when a notification's payload
is not of one or two bytes and its key, where there is one to store, not too long; and when a buffer
without a length, or with one too large, does not read as a notification all the same. -/
theorem processes_iff (garbage : Nat) (buffer behind : Bytes) :
    Processes garbage buffer behind ↔
      (∀ N : Notification, buffer = N.bytes →
        N.payload.length ≠ 1 ∧ N.payload.length ≠ 2 ∧ (N.payload = [] ∨ N.key.length ≤ 65535)) ∧
      (BadLength buffer → ¬ TakenAsNotification garbage (buffer ++ behind) buffer.length) := by
  constructor
  · rintro ⟨hnote, hbad⟩
    refine ⟨fun N hN => ?_, fun hb ht => ?_⟩
    · obtain ⟨hcalls, hfit⟩ := hnote N hN
      rw [hN, N.process_bytes] at hcalls
      by_cases hshort : N.payload.length = 1 ∨ N.payload.length = 2
      · rw [if_pos hshort] at hcalls
        exact absurd hcalls.symm (N.calls_ne_nil behind)
      · rw [not_or] at hshort
        exact ⟨hshort.1, hshort.2, (N.keysFit_iff behind).1 hfit⟩
    · obtain ⟨double, now, alloc, zones, hne⟩ := changes_of_endsWithOffset (process_taken ht)
      exact hne (hbad hb double now alloc zones)
  · rintro ⟨hnote, hbad⟩
    refine ⟨fun N hN => ?_, fun hb double now alloc zones => ?_⟩
    · obtain ⟨h1, h2, hfit⟩ := hnote N hN
      have hshort : ¬ (N.payload.length = 1 ∨ N.payload.length = 2) := not_or.2 ⟨h1, h2⟩
      refine ⟨?_, (N.keysFit_iff behind).2 hfit⟩
      rw [hN, N.process_bytes, if_neg hshort]
    · rw [process_not_taken (hbad hb)]
      rfl

/-- Topic `a`, id 1, a payload of one byte. -/
def oneByte : Notification where
  cmd := 0x30
  field := [12]
  id := 1
  topic := [0x61]
  payload := [7]
  id_pos := le_rfl
  id_le := by decide
  topic_pos := le_rfl
  topic_le := by decide
  isField := ⟨by decide, by decide⟩

/-- A payload of one byte ends the loop before anything is stored. -/
theorem one_byte_lost : ¬ ∀ (garbage : Nat) (buffer behind : Bytes), Processes garbage buffer behind := by
  intro h
  have hcalls := ((h 0 oneByte.bytes []).notification oneByte rfl).1
  have hshort : oneByte.payload.length = 1 ∨ oneByte.payload.length = 2 := Or.inl rfl
  rw [oneByte.process_bytes, if_pos hshort] at hcalls
  exact oneByte.calls_ne_nil [] hcalls.symm

end NgxPlus.Mqtt
