import NgxPlus.Mqtt.Envelope

/-!
# Acknowledging a message (`parse_message_puback`)

| here | there |
| --- | --- |
| `openCacheVal`      | the fields of what is stored for a message (`mqtt_server_module.lua:479-486`) |
| `pubackPayload`     | the message for the publisher's side (`:488-499`) |
| `parseMessagePuback` | `parse_message_puback` (`:463-521`); the queue of the bus takes what is pushed |
| `Server.consumer`   | `topicOffsetMap` of a client's session, by what follows `/` (`mqtt.lua:343-352`) |

The id in the packet is the client's (`pubMsgId`), the one in the stored string the publisher's
(`message_id`). The entry is looked up under the first and deleted under the second (`:502`).
-/

namespace NgxPlus.Mqtt

open ByteMem
open NgxPlus.Diversion (LuaError decodeUtf8 encodeUtf8 utf8Bytes)

/-- As `decode_utf8` reads it from a `CONNECT`. -/
abbrev ClientId := { b : Bytes // b.length ≤ 65535 }

structure Server where
  dicts : Dicts
  consumer : ClientId → Bytes → Option Int
  /-- What is pushed for the bus. -/
  queue : List Bytes
  /-- The offsets in the two topic dictionaries. -/
  offsets : Zone → Bytes → Option Int
  /-- The clients whose semaphore is posted. -/
  posted : List ClientId

structure CacheVal where
  messageId : Nat
  offset : Int
  targetCid : Bytes
  topic : Bytes

def openCacheVal : Bytes → Except LuaError CacheVal
  | b0 :: b1 :: b =>
    match readUint32 b with
    | none => .error .arithNil
    | some offset => do
      let (targetCid, t) ← decodeUtf8 (b.drop 8)
      let (topic, _) ← decodeUtf8 t
      return ⟨b0.toNat * 256 + b1.toNat, offset, targetCid, topic⟩
  | _ => .error .arithNil

/-- The bytes of a value; `string.byte` takes a number by its digits. -/
def Outstanding.bytes : Outstanding → Bytes
  | .msgId n => decimal n
  | .cacheVal b => b

/-- All strings are short enough for `encode_utf8`. -/
def pubackPayload (W : ServerLibs) (now : Int) (clientId : ClientId) (messageTypeFlags : UInt8) (remainingLen : Nat)
    (v : CacheVal) : Bytes :=
  let isEXT := luaUtilityIndexOf v.topic groupExt
  messageTypeFlags :: (encodeRemaining (remainingLen + 1) remainingLen ++ utilityMqttWriteUint16 v.messageId ++
    W.uint64ToBytes now ++ utf8Bytes clientId.1 ++ utf8Bytes v.targetCid ++ [if isEXT = 0 then 0x01 else 0x00])

/-- A `PUBACK` from a client. -/
structure Puback where
  clientId : ClientId
  now : Int
  messageTypeFlags : UInt8
  remainingLen : Nat
  message : Bytes

inductive PubackError
  | remainingLen (n : Nat)
  | lua (e : LuaError)
deriving DecidableEq, Repr

def parseMessagePuback (W : ServerLibs) (p : Puback) (self : Server) : Server × Except PubackError Unit :=
  if p.remainingLen < 2 then (self, .error (.remainingLen p.remainingLen))
  else
    match p.message with
    | b0 :: b1 :: _ =>
      let pubMsgId := b0.toNat * 256 + b1.toNat
      match self.dicts.getOutstanding p.clientId.1 (decimal pubMsgId) with
      | none => (self, .ok ())
      | some outstanding =>
        match openCacheVal outstanding.bytes with
        | .error e => (self, .error (.lua e))
        | .ok v =>
          let dicts := self.dicts.setOutstanding p.clientId.1 (decimal v.messageId) none
          let newoffset := self.offsets (pubackStore v.topic) v.topic
          ({ self with
              dicts := dicts.setOutstanding p.clientId.1 v.topic none
              consumer := Function.update self.consumer p.clientId
                (Function.update (self.consumer p.clientId) v.topic (some v.offset))
              queue := self.queue ++ [pubackPayload W p.now p.clientId p.messageTypeFlags p.remainingLen v]
              posted := if newoffset.any fun o => decide (o > v.offset) then self.posted ++ [p.clientId] else self.posted },
            .ok ())
    | _ => (self, .error (.lua .arithNil))

/-- The client's message id in a packet that has one. -/
def Puback.msgId (p : Puback) : Option Nat :=
  if p.remainingLen < 2 then none
  else match p.message with
    | b0 :: b1 :: _ => some (b0.toNat * 256 + b1.toNat)
    | _ => none

/-! ## Keys -/

theorem toNat_of_mem_toDigits {n : Nat} {c : Char} (h : c ∈ Nat.toDigits 10 n) : 48 ≤ c.toNat ∧ c.toNat ≤ 57 := by
  have hdigit := Nat.isDigit_of_mem_toDigits (by decide) (by decide) h
  simp only [Char.isDigit, Bool.and_eq_true, decide_eq_true_eq] at hdigit
  exact ⟨UInt32.le_iff_toNat_le.1 hdigit.1, UInt32.le_iff_toNat_le.1 hdigit.2⟩

theorem ofDigitChars_decimal (n : Nat) :
    Nat.ofDigitChars 10 ((decimal n).map fun b => Char.ofNat b.toNat) 0 = n := by
  have hback : (decimal n).map (fun b => Char.ofNat b.toNat) = Nat.toDigits 10 n := by
    rw [decimal, List.map_map]
    refine (List.map_congr_left fun c hc => ?_).trans (List.map_id _)
    have hlt := toNat_of_mem_toDigits hc
    have hbyte : (UInt8.ofNat c.toNat).toNat = c.toNat := by
      rw [UInt8.toNat_ofNat']
      omega
    rw [Function.comp_apply, hbyte, Char.ofNat_toNat]
    rfl
  rw [hback, Nat.ofDigitChars_ten_toDigits]

theorem decimal_injective : Function.Injective decimal := by
  intro a b h
  rw [← ofDigitChars_decimal a, h, ofDigitChars_decimal]

theorem decimal_length {n : Nat} (h : n ≤ 65535) : (decimal n).length ≤ 5 := by
  rw [decimal, List.length_map, Nat.length_toDigits_le_iff (by decide) (by decide)]
  omega

theorem outstandingKey_inj {clientId a b : Bytes} (h : outstandingKey clientId a = outstandingKey clientId b) : a = b := by
  rw [outstandingKey, outstandingKey, List.append_cancel_left_eq, List.cons.injEq] at h
  exact h.2

/-- A number has too few digits to be read as what is stored for a message. -/
theorem openCacheVal_short {b : Bytes} (h : b.length ≤ 5) : openCacheVal b = .error .arithNil := by
  match b, h with
  | [], _ | [_], _ => rfl
  | b0 :: b1 :: b, h =>
    have hshort : readUint32 b = none := readUint32_eq_none.2 (by simp at h; omega)
    rw [openCacheVal, hshort]

/-! ## What is stored for a message -/

/-- The publisher's id, the offset, the time of the sending in seconds, the publisher, the topic. -/
structure Sent where
  pMsgId : Nat
  offset : Int
  timestamp : Int
  srcCid : Bytes
  topic : Bytes
  pMsgId_lt : pMsgId < 2 ^ 16
  offset_ge : -2 ^ 31 ≤ offset
  offset_lt : offset < 2 ^ 31
  srcCid_length : srcCid.length ≤ 65535
  topic_length : topic.length ≤ 65535

def Sent.cacheVal (m : Sent) : Bytes := cacheValOf m.pMsgId m.offset m.timestamp m.srcCid m.topic

theorem readUint32_append {n : Int} (hge : -2 ^ 31 ≤ n) (hlt : n < 2 ^ 31) (rest : Bytes) :
    readUint32 (uint32ToBytes n ++ rest) = some n := by
  obtain ⟨k, hk⟩ : ∃ k, k = (n % 2 ^ 32).toNat := ⟨_, rfl⟩
  have hk32 : k < 2 ^ 32 := by omega
  have hbytes : uint32ToBytes n = [UInt8.ofNat (k / 256 ^ 3), UInt8.ofNat (k / 256 ^ 2), UInt8.ofNat (k / 256),
      UInt8.ofNat k] := by
    rw [uint32ToBytes, ← hk, writeUint32_eq_toBe]
    simp [toBe]
  have hsum : ((k / 256 ^ 3 % 2 ^ 8 : Nat) : Int) * 2 ^ 24 + ((k / 256 ^ 2 % 2 ^ 8 : Nat) : Int) * 2 ^ 16 +
      ((k / 256 % 2 ^ 8 : Nat) : Int) * 2 ^ 8 + ((k % 2 ^ 8 : Nat) : Int) = k := by
    omega
  have hcut : toInt32 k = n := by
    rw [toInt32]
    omega
  rw [hbytes, List.cons_append, List.cons_append, List.cons_append, List.cons_append, readUint32]
  simp only [UInt8.toNat_ofNat', hsum, hcut]

theorem openCacheVal_cacheVal (m : Sent) :
    openCacheVal m.cacheVal = .ok ⟨m.pMsgId, m.offset, m.srcCid, m.topic⟩ := by
  have hid : utilityMqttWriteUint16 m.pMsgId = [UInt8.ofNat (m.pMsgId / 256), UInt8.ofNat m.pMsgId] := by
    rw [writeUint16_eq_toBe]
    simp [toBe]
  have hnum : (UInt8.ofNat (m.pMsgId / 256)).toNat * 256 + (UInt8.ofNat m.pMsgId).toNat = m.pMsgId := by
    have := m.pMsgId_lt
    rw [UInt8.toNat_ofNat', UInt8.toNat_ofNat']
    omega
  have hdrop : (uint32ToBytes m.offset ++ (uint32ToBytes m.timestamp ++ (utf8Bytes m.srcCid ++ utf8Bytes m.topic))).drop 8 =
      utf8Bytes m.srcCid ++ utf8Bytes m.topic := by
    rw [← List.append_assoc]
    exact List.drop_left' rfl
  have hread : decodeUtf8 (utf8Bytes m.srcCid ++ utf8Bytes m.topic) = .ok (m.srcCid, utf8Bytes m.topic) :=
    Diversion.decodeUtf8_write m.srcCid_length _
  have hread' : decodeUtf8 (utf8Bytes m.topic) = .ok (m.topic, []) := by
    have h := Diversion.decodeUtf8_write m.topic_length []
    rwa [List.append_nil] at h
  rw [Sent.cacheVal, cacheValOf, hid, List.cons_append, List.cons_append, List.nil_append, openCacheVal,
    readUint32_append m.offset_ge m.offset_lt]
  simp only [hdrop, hread, hread', hnum, bind, Except.bind]
  rfl

/-! ## One call -/

section

variable {W : ServerLibs} {p : Puback} {self : Server} {c : Nat}

/-- A `PUBACK` without an id, or for an id that has no message stored, changes nothing. -/
theorem parseMessagePuback_none (h : ∀ c, p.msgId = some c →
    ∀ o, self.dicts.getOutstanding p.clientId.1 (decimal c) = some o → o.bytes.length ≤ 5) :
    (parseMessagePuback W p self).1 = self := by
  rw [parseMessagePuback]
  by_cases hlen : p.remainingLen < 2
  · rw [if_pos hlen]
  rw [if_neg hlen]
  match hm : p.message with
  | [] | [_] => rfl
  | b0 :: b1 :: rest =>
    have hid : p.msgId = some (b0.toNat * 256 + b1.toNat) := by rw [Puback.msgId, if_neg hlen, hm]
    simp only
    cases ho : self.dicts.getOutstanding p.clientId.1 (decimal (b0.toNat * 256 + b1.toNat)) with
    | none => rfl
    | some o => simp only [openCacheVal_short (h _ hid o ho)]

/-- What a `PUBACK` does where the string of `m` is stored under its id. -/
structure Acked (p : Puback) (m : Sent) (s s' : Server) : Prop where
  dicts : s'.dicts = (s.dicts.setOutstanding p.clientId.1 (decimal m.pMsgId) none).setOutstanding p.clientId.1 m.topic none
  consumer : s'.consumer = Function.update s.consumer p.clientId
    (Function.update (s.consumer p.clientId) m.topic (some m.offset))

theorem parseMessagePuback_some {m : Sent} (hid : p.msgId = some c)
    (ho : self.dicts.getOutstanding p.clientId.1 (decimal c) = some (.cacheVal m.cacheVal)) :
    Acked p m self (parseMessagePuback W p self).1 := by
  rw [Puback.msgId] at hid
  rw [parseMessagePuback]
  by_cases hlen : p.remainingLen < 2
  · rw [if_pos hlen] at hid
    cases hid
  rw [if_neg hlen] at hid ⊢
  match hm : p.message with
  | [] | [_] =>
    rw [hm] at hid
    cases hid
  | b0 :: b1 :: rest =>
    rw [hm] at hid
    obtain rfl := Option.some.inj hid
    simp only [ho, Outstanding.bytes, openCacheVal_cacheVal]
    exact ⟨rfl, rfl⟩

end

end NgxPlus.Mqtt
