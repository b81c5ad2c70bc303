import NgxPlus.Mqtt.Framing
import NgxPlus.Mqtt.RangeRead

/-!
# The envelope of a published message

| here | there |
| --- | --- |
| `parseMessagePublish` | `parse_message_publish` (`mqtt_server_module.lua:104-143`): the message that it stores |
| `openPayload`         | the fields that `processQueue` reads from the payload (`:200-207`) |
| `nextMsgId`           | the next id of `SEQ/clientId` (`:223-230`) |
| `sendQos`             | the branch of `processQueue` for a QoS above 0 (`:216-255`) |
| `processQueueFor`     | `processQueue` (`:179-268`) for a subscription of any QoS |
| `setOutstanding`, `getOutstanding` | `mqtt.lua:329-341`; an entry does not time out here |

`processQueueFor` with QoS 0 is the `processQueue` of `Subscribe.lean` (`processQueueFor_zero`).

Nothing is ever stored: the version is written by `libutility.uint16ToBytes`, which
`lib/Utility.lua` does not have, so the publish of every client that may publish raises
(`publish_never_roundtrips`). What another writer puts into an envelope is written to a
subscriber as it came, exactly when four bytes follow the variable header (they are read as the
offset, whatever they are) and it is short enough for a packet (`Envelope.written_iff`).
-/

namespace NgxPlus.Mqtt

open ByteMem
open NgxPlus.Diversion (LuaError decodeUtf8 encodeUtf8 utf8Bytes ascii)

/-- What else is not in the repository: `utility_lua_write_int64` behind
`MQTT.Utility.uint64ToBytes`. -/
structure ServerLibs extends Libs where
  uint64ToBytes : Int → Bytes

/-- The field of `libutility`. `lib/Utility.lua` has `writeUint16` for this and no
`uint16ToBytes`. -/
def libutilityUint16ToBytes : Option (Nat → Bytes) := none

/-- Calling a field, which may be `nil`. -/
def callField (f : Option (Nat → Bytes)) (n : Nat) : Except LuaError Bytes :=
  match f with
  | none => .error .callNil
  | some f => .ok (f n)

/-! ## The dictionaries -/

/-- A number, or the string stored for a message. -/
inductive Outstanding
  | msgId (n : Nat)
  | cacheVal (b : Bytes)
deriving DecidableEq, Repr

/-- `MQTT_MSG_SEQUENCE_DICT` by what follows `SEQ/`, and `MQTT_OUTSTANDING_STORE_DICT`. -/
structure Dicts where
  sequence : Bytes → Option Nat
  outstanding : Bytes → Option Outstanding

/-- A number as Lua turns it into a string. -/
def decimal (n : Nat) : Bytes := (Nat.toDigits 10 n).map fun c => UInt8.ofNat c.toNat

/-- `self.clientId .. "/" .. key`. -/
def outstandingKey (clientId key : Bytes) : Bytes := clientId ++ 0x2f :: key

def Dicts.setOutstanding (d : Dicts) (clientId key : Bytes) (val : Option Outstanding) : Dicts :=
  { d with outstanding := Function.update d.outstanding (outstandingKey clientId key) val }

def Dicts.getOutstanding (d : Dicts) (clientId key : Bytes) : Option Outstanding :=
  d.outstanding (outstandingKey clientId key)

/-- The id behind the stored one; from 65536 on, and where there is none, it is 1. -/
def nextMsgId : Option Nat → Nat
  | none => 1
  | some n => if n + 1 > 65535 then 1 else n + 1

/-! ## Numbers -/

/-- The result of `bit.bor` is signed; `none` where a byte is missing. -/
def readUint32 : Bytes → Option Int
  | s0 :: s1 :: s2 :: s3 :: _ => some (toInt32 (s0.toNat * 2 ^ 24 + s1.toNat * 2 ^ 16 + s2.toNat * 2 ^ 8 + s3.toNat))
  | _ => none

def uint32ToBytes (n : Int) : Bytes := utilityMqttWriteUint32 (n % 2 ^ 32).toNat

/-! ## Storing -/

/-- `none` where the client is not authorized. -/
def parseMessagePublish (W : ServerLibs) (now : Int) (clientId : Bytes) (messageTypeFlags : UInt8) (payload : Bytes) :
    Except LuaError (Option Bytes) :=
  if luaUtilityIndexOf clientId [0x50, 0x2f] ≠ 0 then .ok none
  else do
    let _ ← decodeUtf8 payload
    let _ver ← callField libutilityUint16ToBytes 1
    let timestamp := now + 120 * 1000
    let tId ← encodeUtf8 []
    let cid ← encodeUtf8 clientId
    let _payload := _ver ++ (W.uint64ToBytes timestamp ++ (tId ++ (cid ++ payload)))
    return some (messageTypeFlags :: (encodeRemaining (_payload.length + 1) _payload.length ++ _payload))

/-! ## Sending -/

/-- `fromTopic` is the payload from the topic on, `rest` what is behind the topic. -/
structure Opened where
  timestamp : Int
  srcCid : Bytes
  topic : Bytes
  fromTopic : Bytes
  rest : Bytes

def openPayload (L : Libs) (payload : Bytes) : Except LuaError Opened := do
  let (_, p) ← decodeUtf8 (payload.drop 10)
  let (srcCid, fromTopic) ← decodeUtf8 p
  let (topic, rest) ← decodeUtf8 fromTopic
  return ⟨L.readUint64 (payload.drop 2), srcCid, topic, fromTopic, rest⟩

/-- `math.ceil(ngx.now())`, in seconds; `now` is in milliseconds. -/
def ceilSeconds (now : Int) : Int := -(-now / 1000)

theorem ceilSeconds_mono {a b : Int} (h : a ≤ b) : ceilSeconds a ≤ ceilSeconds b := by
  rw [ceilSeconds, ceilSeconds]
  omega

/-- What is stored under the client's message id. Both strings come out of `decode_utf8`, so
`encode_utf8` takes them. -/
def cacheValOf (pMsgId : Nat) (offset timestamp : Int) (srcCid topic : Bytes) : Bytes :=
  utilityMqttWriteUint16 pMsgId ++
    (uint32ToBytes offset ++ (uint32ToBytes timestamp ++ (utf8Bytes srcCid ++ utf8Bytes topic)))

def sendQos (stamp : Int) (clientId : Bytes) (sQos : Nat) (qos : UInt8) (o : Opened) (d : Dicts) :
    Dicts × Except LuaError QueueOut :=
  match o.rest with
  | b0 :: b1 :: payload =>
    let pMsgId := b0.toNat * 256 + b1.toNat
    let cMsgId := if sQos > 0 then nextMsgId (d.sequence clientId) else pMsgId
    let d := if sQos > 0 then { d with sequence := Function.update d.sequence clientId (some cMsgId) } else d
    match readUint32 payload with
    | none => (d, .error .arithNil)
    | some offset =>
      let _payload := utf8Bytes o.topic ++ utilityMqttWriteUint16 cMsgId
      let sent := messageWrite typePublish qos (_payload ++ payload)
      let d :=
        if sQos > 0 then
          (d.setOutstanding clientId o.topic (some (.msgId cMsgId))).setOutstanding clientId (decimal cMsgId)
            (some (.cacheVal (cacheValOf pMsgId offset (ceilSeconds stamp) o.srcCid o.topic)))
        else d
      (d, .ok ⟨sent, some cMsgId, false⟩)
  | _ => (d, .error .arithNil)

/-- The clock is read when a message is looked at (`:211`), and again when it is written (`:246`). -/
def processQueueFor (L : Libs) (recvTime stamp : Int) (clientId : Bytes) (sQos : Nat) (buffer : Bytes) (d : Dicts) :
    Dicts × Except LuaError QueueOut :=
  match buffer with
  | [] => (d, .error .arithNil)
  | messageTypeFlags :: rest =>
    let qos := (messageTypeFlags &&& 0x06) >>> 1
    match luaRemaining rest 1 0 2 with
    | none => (d, .ok ⟨none, none, false⟩)
    | some (remainingLen, index) =>
      if buffer.length < remainingLen then (d, .ok ⟨none, none, false⟩)
      else
        let payload := (buffer.drop index).take remainingLen
        if messageTypeFlags >>> 4 = typePublish then
          match openPayload L payload with
          | .error e => (d, .error e)
          | .ok o =>
            if o.timestamp > 0 ∧ o.timestamp < recvTime then (d, .ok ⟨none, none, true⟩)
            else if qos > 0 then sendQos stamp clientId sQos qos o d
            else
              match readUint32 o.rest with
              | none => (d, .error .arithNil)
              | some _ => (d, .ok ⟨messageWrite typePublish qos o.fromTopic, none, false⟩)
        else if messageTypeFlags >>> 4 = typeReserved then (d, .ok ⟨none, none, false⟩)
        else (d, .ok ⟨some buffer, none, false⟩)

theorem readUint32_eq_none {b : Bytes} : readUint32 b = none ↔ b.length < 4 := by
  match b with
  | [] | [_] | [_, _] | [_, _, _] => simp [readUint32]
  | _ :: _ :: _ :: _ :: _ => simp [readUint32]

theorem writeUint16_bytes (b0 b1 : UInt8) : utilityMqttWriteUint16 (b0.toNat * 256 + b1.toNat) = [b0, b1] := by
  have h0 := b0.toNat_lt
  have h1 := b1.toNat_lt
  have hdiv : (b0.toNat * 256 + b1.toNat) / 256 = b0.toNat := by omega
  rw [writeUint16_eq_toBe]
  simp only [toBe, pow_one, pow_zero, Nat.div_one, hdiv, UInt8.ofNat_toNat]
  congr 2
  apply UInt8.toNat_inj.1
  rw [UInt8.toNat_ofNat']
  omega

/-- A subscription with QoS 0 leaves the dictionaries alone. -/
theorem sendQos_zero (stamp : Int) (clientId : Bytes) (qos : UInt8) (o : Opened) (d : Dicts) :
    sendQos stamp clientId 0 qos o d = (d,
      match o.rest with
      | b0 :: b1 :: p =>
        if p.length < 4 then .error .arithNil
        else .ok ⟨messageWrite typePublish qos (utilityMqttWriteUint16 o.topic.length ++ o.topic ++ b0 :: b1 :: p),
          some (b0.toNat * 256 + b1.toNat), false⟩
      | _ => .error .arithNil) := by
  unfold sendQos
  match o.rest with
  | [] | [_] => rfl
  | b0 :: b1 :: p =>
    by_cases hp : p.length < 4
    · simp only [gt_iff_lt, lt_irrefl, if_false, readUint32_eq_none.2 hp, if_pos hp]
    · cases hr : readUint32 p with
      | none => exact absurd (readUint32_eq_none.1 hr) hp
      | some offset =>
        simp only [gt_iff_lt, lt_irrefl, if_false, hr, if_neg hp, writeUint16_bytes, utf8Bytes]
        simp

theorem processQueueFor_zero (L : Libs) (recvTime stamp : Int) (clientId buffer : Bytes) (d : Dicts) :
    processQueueFor L recvTime stamp clientId 0 buffer d = (d, processQueue L recvTime buffer) := by
  cases buffer with
  | nil => rfl
  | cons messageTypeFlags rest =>
    cases hr : luaRemaining rest 1 0 2 with
    | none => simp only [processQueueFor, processQueue, hr]
    | some r =>
      simp only [processQueueFor, processQueue, hr]
      by_cases hlen : (messageTypeFlags :: rest).length < r.1
      · rw [if_pos hlen, if_pos hlen]
      rw [if_neg hlen, if_neg hlen]
      by_cases htype : messageTypeFlags >>> 4 = typePublish
      · rw [if_pos htype, if_pos htype, openPayload]
        generalize ((messageTypeFlags :: rest).drop r.2).take r.1 = payload
        cases h1 : decodeUtf8 (payload.drop 10) with
        | error e => rfl
        | ok v1 =>
          cases h2 : decodeUtf8 v1.2 with
          | error e => simp only [h2, bind, Except.bind]
          | ok v2 =>
            cases h3 : decodeUtf8 v2.2 with
            | error e => simp only [h2, h3, bind, Except.bind]
            | ok v3 =>
              simp only [h2, h3, bind, Except.bind, pure, Except.pure, sendQos_zero]
              by_cases hexp : L.readUint64 (payload.drop 2) > 0 ∧ L.readUint64 (payload.drop 2) < recvTime
              · rw [if_pos hexp, if_pos hexp]
              rw [if_neg hexp, if_neg hexp]
              by_cases hqos : (messageTypeFlags &&& 0x06) >>> 1 > 0
              · exact (if_pos hqos).trans (congrArg (Prod.mk d) (if_pos hqos).symm)
              rw [if_neg hqos, if_neg hqos]
              by_cases hshort : v3.2.length < 4
              · rw [readUint32_eq_none.2 hshort, if_pos hshort]
              · cases ho : readUint32 v3.2 with
                | none => exact absurd (readUint32_eq_none.1 ho) hshort
                | some offset => rw [if_neg hshort]
      · rw [if_neg htype, if_neg htype]
        split <;> rfl

/-! ## Messages in an envelope -/

/-- A stored message: the first byte, the version, the timestamp, the two client ids and the
topic, with what is behind it. -/
structure Envelope where
  flags : UInt8
  version : Bytes
  stamp : Bytes
  tId : Bytes
  srcCid : Bytes
  topic : Bytes
  rest : Bytes
  type : flags >>> 4 = typePublish
  version_length : version.length = 2
  stamp_length : stamp.length = 8
  tId_length : tId.length ≤ 65535
  srcCid_length : srcCid.length ≤ 65535
  topic_length : topic.length ≤ 65535

namespace Envelope

variable (e : Envelope)

def payload : Bytes :=
  e.version ++ (e.stamp ++ (utf8Bytes e.tId ++ (utf8Bytes e.srcCid ++ (utf8Bytes e.topic ++ e.rest))))

def bytes : Bytes := e.flags :: (encodeRemaining (e.payload.length + 1) e.payload.length ++ e.payload)

def qos : UInt8 := (e.flags &&& 0x06) >>> 1

/-- The timestamp, as far as it is read from the eight bytes. -/
def timestamp (L : Libs) : Int := L.readUint64 (e.payload.drop 2)

def opened (L : Libs) : Opened := ⟨e.timestamp L, e.srcCid, e.topic, utf8Bytes e.topic ++ e.rest, e.rest⟩

theorem openPayload_eq (L : Libs) : openPayload L e.payload = .ok (e.opened L) := by
  have hdrop : e.payload.drop 10 = utf8Bytes e.tId ++ (utf8Bytes e.srcCid ++ (utf8Bytes e.topic ++ e.rest)) := by
    rw [payload, ← List.append_assoc, List.drop_left' (by rw [List.length_append, e.version_length, e.stamp_length])]
  have hread : ∀ {b : Bytes} (rest : Bytes), b.length ≤ 65535 → decodeUtf8 (utf8Bytes b ++ rest) = .ok (b, rest) :=
    fun rest hb => Diversion.decodeUtf8_write hb rest
  rw [openPayload, hdrop]
  simp only [hread _ e.tId_length, hread _ e.srcCid_length, hread _ e.topic_length, bind, Except.bind]
  rfl

theorem processQueueFor_bytes (L : Libs) (recvTime stamp : Int) (clientId : Bytes) (sQos : Nat) (d : Dicts) :
    processQueueFor L recvTime stamp clientId sQos e.bytes d =
      if e.timestamp L > 0 ∧ e.timestamp L < recvTime then (d, .ok ⟨none, none, true⟩)
      else if e.qos > 0 then sendQos stamp clientId sQos e.qos (e.opened L) d
      else match readUint32 e.rest with
        | none => (d, .error .arithNil)
        | some _ => (d, .ok ⟨messageWrite typePublish e.qos (utf8Bytes e.topic ++ e.rest), none, false⟩) := by
  have hrem : luaRemaining (encodeRemaining (e.payload.length + 1) e.payload.length ++ e.payload) 1 0 2 =
      some (e.payload.length, 2 + (encodeRemaining (e.payload.length + 1) e.payload.length).length - 1) := by
    rw [Framing.luaRemaining_encode (Framing.lt_pow_length _), Nat.zero_add, Nat.mul_one]
  have hpos := Framing.encodeRemaining_length e.payload.length e.payload.length
  have htake : (e.bytes.drop (2 + (encodeRemaining (e.payload.length + 1) e.payload.length).length - 1)).take
      e.payload.length = e.payload := by
    have hindex : 2 + (encodeRemaining (e.payload.length + 1) e.payload.length).length - 1 =
        (encodeRemaining (e.payload.length + 1) e.payload.length).length + 1 := by omega
    rw [hindex, bytes, List.drop_succ_cons, List.drop_left, List.take_length]
  have hlong : ¬ e.bytes.length < e.payload.length := by
    rw [bytes, List.length_cons, List.length_append]
    omega
  rw [bytes] at hlong htake ⊢
  simp only [processQueueFor, hrem, if_neg hlong, htake, if_pos e.type, e.openPayload_eq]
  rfl

theorem processQueueFor_eq {L : Libs} {recvTime : Int} (h : ¬ (e.timestamp L > 0 ∧ e.timestamp L < recvTime))
    (stamp : Int) (clientId : Bytes) (sQos : Nat) (d : Dicts) :
    processQueueFor L recvTime stamp clientId sQos e.bytes d =
      if e.qos > 0 then sendQos stamp clientId sQos e.qos (e.opened L) d
      else match readUint32 e.rest with
        | none => (d, .error .arithNil)
        | some _ => (d, .ok ⟨messageWrite typePublish e.qos (utf8Bytes e.topic ++ e.rest), none, false⟩) := by
  rw [processQueueFor_bytes, if_neg h]

end Envelope

/-! ## The round trip -/

/-- A `PUBLISH` as it is received and as it is sent: QoS 1 with a message id, QoS 0 without. -/
structure Publication where
  topic : Bytes
  messageId : Option (UInt8 × UInt8)
  app : Bytes
  topic_length : topic.length ≤ 65535

namespace Publication

variable (p : Publication)

def qos : UInt8 := if p.messageId.isSome then 1 else 0

def rest : Bytes := (p.messageId.map fun id => [id.1, id.2]).getD [] ++ p.app

def payload : Bytes := utf8Bytes p.topic ++ p.rest

/-- The packet, without the `DUP` and the `RETAIN` flag. -/
def frame : Bytes := UInt8.ofNat (0x30 + 2 * p.qos.toNat) :: (encodeRemaining 5 p.payload.length ++ p.payload)

/-- With the subscriber's message id `cMsgId`, where there is one. -/
def withId (cMsgId : Nat) : Publication :=
  { p with messageId := p.messageId.map fun _ => (UInt8.ofNat (cMsgId / 256), UInt8.ofNat cMsgId) }

/-- What a subscriber gets: only with both QoS above 0 the message id is its own. -/
def forSubscriber (sQos : Nat) (d : Dicts) (subscriber : Bytes) : Publication :=
  if sQos > 0 then p.withId (nextMsgId (d.sequence subscriber)) else p

end Publication

/-- The message is written, and nothing is raised. -/
def Writes (frame : Bytes) (r : Dicts × Except LuaError QueueOut) : Prop :=
  ∃ q, r.2 = .ok q ∧ q.sent = some frame

section

variable {later : Int} {clientId : Bytes}

theorem messageWrite_publication (p : Publication) :
    messageWrite typePublish p.qos p.payload = if p.payload.length > maxPayloadLength then none else some p.frame := by
  have hflags : ((typePublish <<< 4) ||| ((p.qos &&& 0x03) <<< 1)) = UInt8.ofNat (0x30 + 2 * p.qos.toNat) := by
    rw [Publication.qos]
    split
    · decide
    · decide
  rw [messageWrite, hflags]
  rfl

theorem length_withId (p : Publication) (cMsgId : Nat) : (p.withId cMsgId).payload.length = p.payload.length := by
  simp only [Publication.payload, Publication.rest, Publication.withId]
  cases p.messageId with
  | none => rfl
  | some id => simp

theorem qos_withId (p : Publication) (cMsgId : Nat) : (p.withId cMsgId).qos = p.qos := by
  simp only [Publication.qos, Publication.withId, Option.isSome_map]

/-- The message id of a subscriber is put where the publisher's was. -/
theorem payload_withId {p : Publication} {b0 b1 : UInt8} (h : p.messageId = some (b0, b1)) (cMsgId : Nat) :
    (p.withId cMsgId).payload = utf8Bytes p.topic ++ utilityMqttWriteUint16 cMsgId ++ p.app := by
  rw [writeUint16_eq_toBe]
  simp [Publication.payload, Publication.rest, Publication.withId, h, toBe]

theorem sendQos_snd {o : Opened} {b0 b1 : UInt8} {app : Bytes} (h : o.rest = b0 :: b1 :: app) (stamp : Int) (qos : UInt8)
    (clientId : Bytes) (sQos : Nat) (d : Dicts) :
    let cMsgId := if sQos > 0 then nextMsgId (d.sequence clientId) else b0.toNat * 256 + b1.toNat
    (sendQos stamp clientId sQos qos o d).2 =
      if app.length < 4 then .error .arithNil
      else .ok ⟨messageWrite typePublish qos (utf8Bytes o.topic ++ utilityMqttWriteUint16 cMsgId ++ app), some cMsgId,
        false⟩ := by
  simp only [sendQos, h]
  by_cases ha : app.length < 4
  · rw [readUint32_eq_none.2 ha, if_pos ha]
  · cases hr : readUint32 app with
    | none => exact absurd (readUint32_eq_none.1 hr) ha
    | some offset => rw [if_neg ha]

/-- What is written for a publication in an envelope. -/
theorem processQueueFor_publication {L : Libs} {e : Envelope} {p : Publication} (hqos : e.qos = p.qos)
    (htopic : e.topic = p.topic) (hrest : e.rest = p.rest) (hnow : ¬ (e.timestamp L > 0 ∧ e.timestamp L < later))
    (stamp : Int) (subscriber : Bytes) (sQos : Nat) (d : Dicts) :
    ∃ cMsgId, (processQueueFor L later stamp subscriber sQos e.bytes d).2 =
      if p.app.length < 4 then .error .arithNil
      else .ok ⟨messageWrite typePublish p.qos (p.forSubscriber sQos d subscriber).payload, cMsgId, false⟩ := by
  rw [e.processQueueFor_eq hnow, hqos]
  cases hid : p.messageId with
  | none =>
    have h0 : ¬ p.qos > 0 := by simp [Publication.qos, hid]
    have happ : e.rest = p.app := by rw [hrest, Publication.rest, hid]; rfl
    have hsame : (p.forSubscriber sQos d subscriber).payload = utf8Bytes p.topic ++ p.app := by
      rw [Publication.forSubscriber]
      split
      · simp [Publication.payload, Publication.rest, Publication.withId, hid]
      · simp [Publication.payload, Publication.rest, hid]
    refine ⟨none, ?_⟩
    rw [if_neg h0, happ, htopic, hsame]
    by_cases ha : p.app.length < 4
    · rw [readUint32_eq_none.2 ha, if_pos ha]
    · cases hr : readUint32 p.app with
      | none => exact absurd (readUint32_eq_none.1 hr) ha
      | some offset => rw [if_neg ha]
  | some id =>
    obtain ⟨b0, b1⟩ := id
    have h1 : p.qos > 0 := by simp [Publication.qos, hid]
    have happ : (e.opened L).rest = b0 :: b1 :: p.app := by
      have hr : (e.opened L).rest = p.rest := hrest
      rw [hr, Publication.rest, hid]
      rfl
    rw [if_pos h1, sendQos_snd happ]
    refine ⟨some (if sQos > 0 then nextMsgId (d.sequence subscriber) else b0.toNat * 256 + b1.toNat), ?_⟩
    have ht : (e.opened L).topic = p.topic := htopic
    by_cases hs : sQos > 0
    · rw [if_pos hs, Publication.forSubscriber, if_pos hs, payload_withId hid, ht]
    · rw [if_neg hs, Publication.forSubscriber, if_neg hs, ht, writeUint16_bytes]
      simp [Publication.payload, Publication.rest, hid]

/-- **Out of the envelope**: a publication that has not expired is written to a subscriber as
it came, but for the message id, exactly when four bytes follow the variable header and it is
short enough for a packet. -/
theorem Envelope.written_iff {L : Libs} {e : Envelope} {p : Publication} (hqos : e.qos = p.qos)
    (htopic : e.topic = p.topic) (hrest : e.rest = p.rest) (hnow : ¬ (e.timestamp L > 0 ∧ e.timestamp L < later))
    (stamp : Int) (subscriber : Bytes) (sQos : Nat) (d : Dicts) :
    Writes (p.forSubscriber sQos d subscriber).frame (processQueueFor L later stamp subscriber sQos e.bytes d) ↔
      4 ≤ p.app.length ∧ p.payload.length ≤ maxPayloadLength := by
  obtain ⟨cMsgId, hres⟩ := processQueueFor_publication hqos htopic hrest hnow stamp subscriber sQos d
  have hlen : (p.forSubscriber sQos d subscriber).payload.length = p.payload.length := by
    rw [Publication.forSubscriber]
    split
    · exact length_withId p _
    · rfl
  have hqos' : (p.forSubscriber sQos d subscriber).qos = p.qos := by
    rw [Publication.forSubscriber]
    split
    · exact qos_withId p _
    · rfl
  rw [Writes, hres, ← hqos', messageWrite_publication, hlen]
  by_cases ha : p.app.length < 4
  · simp [ha]
  · by_cases hb : p.payload.length > maxPayloadLength
    · simp [ha, hb]
    · simp [ha, hb]
      omega

end

/-- A message is stored, and `processQueue` writes the publication for the subscriber. -/
def RoundTrips (W : ServerLibs) (now later stamp : Int) (clientId : Bytes) (flags : UInt8) (p : Publication)
    (subscriber : Bytes) (sQos : Nat) (d : Dicts) : Prop :=
  ∃ m, parseMessagePublish W now clientId flags p.payload = .ok (some m) ∧
    Writes (p.forSubscriber sQos d subscriber).frame (processQueueFor W.toLibs later stamp subscriber sQos m d)

theorem parseMessagePublish_eq (W : ServerLibs) (now : Int) (clientId : Bytes) (flags : UInt8) (p : Publication) :
    parseMessagePublish W now clientId flags p.payload =
      if luaUtilityIndexOf clientId [0x50, 0x2f] ≠ 0 then .ok none else .error .callNil := by
  have hread : decodeUtf8 p.payload = .ok (p.topic, p.rest) := Diversion.decodeUtf8_write p.topic_length p.rest
  rw [parseMessagePublish, hread]
  rfl

/-- **No round trip**: a client that may not publish stores nothing, and for one that may the
call of `uint16ToBytes` raises before there is a message. -/
theorem publish_never_roundtrips (W : ServerLibs) (now later stamp : Int) (clientId : Bytes) (flags : UInt8)
    (p : Publication) (subscriber : Bytes) (sQos : Nat) (d : Dicts) :
    parseMessagePublish W now clientId flags p.payload =
        (if luaUtilityIndexOf clientId [0x50, 0x2f] ≠ 0 then .ok none else .error .callNil) ∧
      ¬ RoundTrips W now later stamp clientId flags p subscriber sQos d := by
  refine ⟨parseMessagePublish_eq W now clientId flags p, ?_⟩
  rintro ⟨m, hm, -⟩
  rw [parseMessagePublish_eq] at hm
  split at hm
  · cases hm
  · cases hm

def bigEndianServer : ServerLibs where
  toLibs := bigEndian
  uint64ToBytes n := utilityMqttWriteUint64 n.toNat

theorem length_topicA : ([0x61] : Bytes).length ≤ 65535 := by decide

/-- Topic `a` with QoS 0 and the payload `abcd`. -/
def abcd : Publication := ⟨[0x61], none, ascii ['a', 'b', 'c', 'd'], length_topicA⟩

/-- Client `P/x`, and a subscriber with QoS 0. -/
theorem authorised_publish_raises :
    ¬ ∀ (W : ServerLibs) (now later stamp : Int) (clientId : Bytes) (flags : UInt8) (p : Publication),
      clientId.length ≤ 65535 → luaUtilityIndexOf clientId [0x50, 0x2f] = 0 → flags >>> 4 = typePublish →
      (flags &&& 0x06) >>> 1 = p.qos → 0 ≤ now → later ≤ now + 120 * 1000 →
      ∀ (subscriber : Bytes) (sQos : Nat) (d : Dicts), RoundTrips W now later stamp clientId flags p subscriber sQos d := by
  intro h
  obtain ⟨m, hm, -⟩ := h bigEndianServer 0 0 0 [0x50, 0x2f, 0x78] 0x30 abcd (by decide) (by decide) (by decide)
    (by decide) le_rfl (by norm_num) [0x79] 0 ⟨fun _ => none, fun _ => none⟩
  rw [parseMessagePublish_eq, if_neg (by decide)] at hm
  cases hm

end NgxPlus.Mqtt
