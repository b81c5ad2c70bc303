import NgxPlus.Mqtt.InFlight

/-!
# A pass over a topic for a subscription with QoS

| here | there |
| --- | --- |
| `sendValsFor`, `processSubscribeFor` | `process_subscribe` (`mqtt_server_module.lua:270-319`) |
| `expireProcessFor` | from the label `expire_process` on (`:418-447`) |
| `resendFrom`       | where a subscription with QoS goes on (`:381-401`) |
| `passFor`          | the body for one topic of `mqtt_process_subscribe` (`:371-448`) |

A pass goes on behind the consumer's offset, or at the message in flight once that is 60 seconds
old; before, it ends. The clock goes on within it: it is read for the message in flight (`:391`), for
the script (`:165`), and for each message before and after it is written (`:211`, `:246`).

With QoS 0, and a clock that stands still, this is the pass of `Subscribe.lean` (`passFor_zero`).
`ids` is what `process_subscribe` returned with an id: the offset of the message that it stopped at,
the id, and the time when it was written.

`PageSent` is what a page does when none of its messages expires on the way: it writes the messages
without QoS up to the first one with QoS, and that one under the client's next id.
-/

namespace NgxPlus.Mqtt

open ByteMem
open NgxPlus.Diversion (LuaError decodeUtf8 utf8Bytes)

/-! ## The pass -/

/-- The clock as a page reads it: for the script, and in `processQueue` for its `n`-th message. -/
structure PageClock where
  script : Int
  recvTime : Nat → Int
  stamp : Nat → Int

/-- The clock as a pass reads it: where a message in flight is looked at, and for its `n`-th page. -/
structure PassClock where
  resend : Int
  page : Nat → PageClock

/-- `cMsgId` is with what the clock showed when the message was written. -/
structure QosPage where
  sent : List Bytes
  offset : Option Int
  cMsgId : Option (Nat × Int)
  existedExpire : Bool

def sendValsFor (L : Libs) (clock : PageClock) (clientId : Bytes) (sQos : Nat) (maxoffset : Int) :
    Nat → List (Nat × Bytes) → Int → Bool → Dicts → Dicts × QosPage
  | _, [], _, existedExpire, d => (d, ⟨[], some maxoffset, none, existedExpire⟩)
  | n, (offset, buffer) :: vals, consumerOffset, existedExpire, d =>
    match processQueueFor L (clock.recvTime n) (clock.stamp n) clientId sQos buffer d with
    | (d, .error _) => (d, ⟨[], none, none, existedExpire⟩)
    | (d, .ok q) =>
      let consumerOffset := if (offset : Int) > consumerOffset then (offset : Int) else consumerOffset
      let existedExpire := q.existedExpire || existedExpire
      match q.cMsgId with
      | some cMsgId => (d, ⟨q.sent.toList, some consumerOffset, some (cMsgId, clock.stamp n), existedExpire⟩)
      | none =>
        let r := sendValsFor L clock clientId sQos maxoffset (n + 1) vals consumerOffset existedExpire d
        (r.1, { r.2 with sent := q.sent.toList ++ r.2.sent })

/-- `looks` is what the clock showed when the script was called. -/
structure QosPass where
  key : TopicKey
  dicts : Dicts
  consumer : Int
  sent : List Bytes
  ids : List (Int × Nat × Int)
  looks : List Int

def processSubscribeFor (L : Libs) (clock : PageClock) (clientId : Bytes) (sQos : Nat) (st : TopicKey) (d : Dicts)
    (minoffset pagesize : Int) : TopicKey × Dicts × QosPage :=
  match mqttZrangebyscore L st clock.script subMaxRange minoffset pagesize with
  | (st, .vals t max) => (st, sendValsFor L clock clientId sQos max 0 t (-1) false d)
  | (st, _) => (st, d, ⟨[], none, none, false⟩)

/-- `n` counts the pages. -/
def expireProcessFor (L : Libs) (clock : Nat → PageClock) (clientId : Bytes) (sQos : Nat) (newoffset : Int) :
    Nat → Nat → Int → Int → Bool → QosPass → QosPass
  | 0, _, _, _, _, s => s
  | fuel + 1, n, oldoffset, pagesize, existedExpire, s =>
    if existedExpire ∧ pagesize = newoffset - oldoffset then s
    else
      let pagesize :=
        if existedExpire then newoffset - oldoffset
        else if pagesize > subPagesize then subPagesize else pagesize
      let (key, dicts, page) := processSubscribeFor L (clock n) clientId sQos s.key s.dicts (oldoffset + 1) pagesize
      let s : QosPass := ⟨key, dicts, s.consumer, s.sent ++ page.sent, s.ids, s.looks ++ [(clock n).script]⟩
      match page.offset with
      | none => s
      | some consumerOffset =>
        match page.cMsgId with
        | none =>
          if consumerOffset = -1 then s
          else
            let consumerOffset := if consumerOffset ≥ intMaxRing then 0 else consumerOffset
            let s := { s with consumer := consumerOffset }
            if consumerOffset ≥ newoffset then s
            else if page.existedExpire then
              expireProcessFor L clock clientId sQos newoffset fuel (n + 1) consumerOffset pagesize true s
            else s
        | some (cMsgId, stamp) =>
          let s := { s with ids := s.ids ++ [(consumerOffset, cMsgId, stamp)] }
          if page.existedExpire then
            expireProcessFor L clock clientId sQos newoffset fuel (n + 1) oldoffset pagesize true s
          else s

/-- The first error is that of `string.byte` without a string. -/
def resendFrom (d : Dicts) (clientId topic : Bytes) (now newoffset oldoffset : Int) : Except LuaError Int :=
  match d.getOutstanding clientId topic with
  | none => .ok oldoffset
  | some sMsgId =>
    match d.getOutstanding clientId sMsgId.bytes with
    | none => .error .arithNil
    | some outstanding =>
      match outstanding.bytes with
      | _ :: _ :: b =>
        match readUint32 b, readUint32 (b.drop 4) with
        | some offset, some timestamp =>
          -- `oldoffset = newoffset` is the end of the pass
          if ceilSeconds now - timestamp < 60 then .ok newoffset
          else do
            let _ ← decodeUtf8 (b.drop 8)
            return offset - 1
        | _, _ => .error .arithNil
      | _ => .error .arithNil

/-- `consumer` is what is stored for the topic, or where the subscription begins. -/
def passFor (L : Libs) (clock : PassClock) (newoffset : Int) (clientId topic : Bytes) (sQos : Nat) (s : QosPass) :
    QosPass :=
  match if sQos > 0 then resendFrom s.dicts clientId topic clock.resend newoffset s.consumer else .ok s.consumer with
  | .error _ => s
  | .ok oldoffset =>
    let s := if oldoffset ≥ intMaxRing then { s with consumer := 0 } else s
    let (oldoffset, newoffset) := ringAdjust oldoffset newoffset
    if newoffset > oldoffset then
      let oldoffset := if newoffset > oldoffset + subMaxRange then newoffset - subMaxRange else oldoffset
      expireProcessFor L clock.page clientId sQos newoffset (newoffset - oldoffset + 2).toNat 0 oldoffset
        (newoffset - oldoffset) false s
    else s

/-- `oldoffset` where nothing is stored for the topic (`:373-379`). -/
def initialOffset (newoffset minoffset : Int) : Int := if minoffset ≤ -1 then newoffset + minoffset else minoffset

/-! ## Without QoS -/

/-- A clock that stands still. -/
def PassClock.still (now : Int) : PassClock := ⟨now, fun _ => ⟨now, fun _ => now, fun _ => now⟩⟩

/-- The page of a subscription with QoS 0. -/
def QosPage.page (p : QosPage) : Page := ⟨p.sent, p.offset, p.cMsgId.map Prod.fst, p.existedExpire⟩

section Zero

variable {L : Libs} {now : Int} {clientId : Bytes}

theorem sendValsFor_zero (maxoffset consumerOffset : Int) (n : Nat) (t : List (Nat × Bytes)) (existedExpire : Bool)
    (d : Dicts) :
    let r := sendValsFor L ((PassClock.still now).page 0) clientId 0 maxoffset n t consumerOffset existedExpire d
    r.1 = d ∧ r.2.page = sendVals L now maxoffset t consumerOffset existedExpire := by
  induction t generalizing n consumerOffset existedExpire with
  | nil => exact ⟨rfl, rfl⟩
  | cons e t ih =>
    rw [sendValsFor, sendVals, processQueueFor_zero]
    simp only [PassClock.still] at ih ⊢
    cases processQueue L now e.2 with
    | error err => exact ⟨rfl, rfl⟩
    | ok q =>
      simp only
      cases q.cMsgId with
      | some c => exact ⟨rfl, rfl⟩
      | none =>
        obtain ⟨hd, hpage⟩ := ih (if (e.1 : Int) > consumerOffset then (e.1 : Int) else consumerOffset) (n + 1)
          (q.existedExpire || existedExpire)
        refine ⟨hd, ?_⟩
        simp only [← hpage]
        rfl

theorem processSubscribeFor_zero (n : Nat) (st : TopicKey) (d : Dicts) (minoffset pagesize : Int) :
    let r := processSubscribeFor L ((PassClock.still now).page n) clientId 0 st d minoffset pagesize
    r.1 = (processSubscribe L now st minoffset pagesize).1 ∧ r.2.1 = d ∧
      r.2.2.page = (processSubscribe L now st minoffset pagesize).2 := by
  have hscript : ((PassClock.still now).page n).script = now := rfl
  simp only [processSubscribeFor, processSubscribe, hscript]
  cases mqttZrangebyscore L st now subMaxRange minoffset pagesize with
  | mk st reply =>
    cases reply with
    | vals t max => exact ⟨rfl, sendValsFor_zero max (-1) 0 t false d⟩
    | err max => exact ⟨rfl, rfl, rfl⟩
    | raised => exact ⟨rfl, rfl, rfl⟩

/-- The pass of a subscription with QoS 0, with the dictionaries beside it. -/
def QosPass.pass (s : QosPass) : Pass := ⟨s.key, s.consumer, s.sent⟩

theorem expireProcessFor_zero (newoffset : Int) (fuel n : Nat) (oldoffset pagesize : Int) (existedExpire : Bool)
    (s : QosPass) :
    let r := expireProcessFor L (PassClock.still now).page clientId 0 newoffset fuel n oldoffset pagesize existedExpire s
    r.dicts = s.dicts ∧ r.pass = expireProcess L now newoffset fuel oldoffset pagesize existedExpire s.pass := by
  induction fuel generalizing n oldoffset pagesize existedExpire s with
  | zero => exact ⟨rfl, rfl⟩
  | succ fuel ih =>
    rw [expireProcessFor, expireProcess]
    by_cases hstop : existedExpire ∧ pagesize = newoffset - oldoffset
    · rw [if_pos hstop, if_pos hstop]
      exact ⟨rfl, rfl⟩
    rw [if_neg hstop, if_neg hstop]
    simp only
    generalize (if existedExpire = true then newoffset - oldoffset
      else if pagesize > subPagesize then subPagesize else pagesize) = size
    have hpage := @processSubscribeFor_zero L now clientId n s.key s.dicts (oldoffset + 1) size
    have hkey : s.pass.key = s.key := rfl
    rw [hkey]
    generalize processSubscribe L now s.key (oldoffset + 1) size = r at hpage ⊢
    generalize processSubscribeFor L _ clientId 0 s.key s.dicts (oldoffset + 1) size = r' at hpage ⊢
    obtain ⟨key, page⟩ := r
    obtain ⟨key', dicts, ⟨sent, offset, cMsgId, existed⟩⟩ := r'
    obtain ⟨rfl, rfl, rfl⟩ := hpage
    simp only [QosPage.page]
    cases offset with
    | none => exact ⟨rfl, rfl⟩
    | some consumerOffset =>
      cases cMsgId with
      | none =>
        simp only [Option.map_none, if_true]
        split
        · exact ⟨rfl, rfl⟩
        · generalize (if consumerOffset ≥ intMaxRing then 0 else consumerOffset) = c
          split
          · exact ⟨rfl, rfl⟩
          · cases existed with
            | true => exact ih _ _ _ _ _
            | false => exact ⟨rfl, rfl⟩
      | some cMsgId =>
        simp only [Option.map_some, reduceCtorEq, if_false]
        cases existed with
        | true => exact ih _ _ _ _ _
        | false => exact ⟨rfl, rfl⟩

/-- With a clock that stands still, a pass for a subscription with QoS 0 is that of `Subscribe.lean`. -/
theorem passFor_zero (newoffset : Int) (topic : Bytes) (s : QosPass) :
    let r := passFor L (.still now) newoffset clientId topic 0 s
    r.dicts = s.dicts ∧ r.pass = subscribePass L now newoffset s.pass := by
  rw [passFor, subscribePass]
  simp only [gt_iff_lt, lt_irrefl, if_false]
  by_cases hend : s.consumer ≥ intMaxRing
  · rw [if_pos hend, ringAdjust, if_pos hend, ringAdjust, if_pos (show s.pass.consumer ≥ intMaxRing from hend)]
    simp only
    split
    · exact expireProcessFor_zero ..
    · exact ⟨rfl, rfl⟩
  · have hfirst : ∀ n, (ringAdjust s.consumer n).1 = s.consumer := fun n => by
      rw [ringAdjust, if_neg hend]
      split <;> rfl
    rw [if_neg hend, show s.pass.consumer = s.consumer from rfl, ← Prod.mk.eta (p := ringAdjust s.consumer newoffset)]
    simp only [hfirst]
    split
    · exact expireProcessFor_zero ..
    · exact ⟨rfl, rfl⟩

end Zero

/-! ## Stored messages -/

theorem encodeRemaining_digits {fuel n : Nat} (h : n < 128 ^ (fuel + 1)) :
    ∃ more last, encodeRemaining (fuel + 1) n = more ++ [last] ∧ (∀ d ∈ more, 128 ≤ d) ∧ last < 128 ∧
      remainingValue (more ++ [last]) = n := by
  induction fuel generalizing n with
  | zero =>
    rw [encodeRemaining, if_neg (by omega)]
    refine ⟨[], UInt8.ofNat (n % 128), rfl, by simp, ?_, ?_⟩
    · rw [UInt8.lt_iff_toNat_lt, Framing.digit_last]
      exact Nat.mod_lt _ (by omega)
    · simp only [List.nil_append, remainingValue, Framing.digit_last]
      omega
  | succ fuel ih =>
    rw [encodeRemaining]
    by_cases hn : n / 128 > 0
    · have hdiv : n / 128 < 128 ^ (fuel + 1) := by
        rw [pow_succ] at h
        omega
      obtain ⟨more, last, henc, hmore, hlast, hval⟩ := ih hdiv
      rw [if_pos hn, henc]
      refine ⟨UInt8.ofNat (n % 128 + 128) :: more, last, rfl, ?_, hlast, ?_⟩
      · rintro d hd
        rcases List.mem_cons.1 hd with rfl | hd
        · rw [UInt8.le_iff_toNat_le, Framing.digit_more]
          exact Nat.le_add_left _ _
        · exact hmore d hd
      · rw [List.cons_append, remainingValue, hval, Framing.digit_more]
        omega
    · rw [if_neg hn]
      refine ⟨[], UInt8.ofNat (n % 128), rfl, by simp, ?_, ?_⟩
      · rw [UInt8.lt_iff_toNat_lt, Framing.digit_last]
        exact Nat.mod_lt _ (by omega)
      · simp only [List.nil_append, remainingValue, Framing.digit_last]
        omega

/-- Both readers take a big-endian number from the first eight bytes. -/
structure ReadsBigEndian (L : Libs) : Prop where
  redis : ∀ b, 8 ≤ b.length → L.redisReadInt64 b = int64Be b
  server : ∀ b, 8 ≤ b.length → L.readUint64 b = int64Be b

namespace Envelope

variable (e : Envelope)

theorem exists_digits : ∃ more last, e.bytes = e.flags :: (more ++ last :: e.payload) ∧ (∀ d ∈ more, 128 ≤ d) ∧
    last < 128 ∧ remainingValue (more ++ [last]) = e.payload.length := by
  obtain ⟨more, last, henc, hmore, hlast, hval⟩ := encodeRemaining_digits (Framing.lt_pow_length e.payload.length)
  refine ⟨more, last, ?_, hmore, hlast, hval⟩
  rw [bytes, henc, List.append_assoc]
  rfl

theorem payload_length : 10 ≤ e.payload.length := by
  rw [payload, List.length_append, List.length_append, e.version_length, e.stamp_length]
  omega

theorem publishMessage : PublishMessage e.bytes := by
  obtain ⟨more, last, hbytes, hmore, hlast, hval⟩ := e.exists_digits
  rw [hbytes]
  exact .mk e.flags more last e.payload e.type hmore hlast hval e.payload_length

theorem timestamp_eq {L : Libs} (hL : ReadsBigEndian L) : e.timestamp L = timestampOf e.bytes := by
  obtain ⟨more, last, hbytes, hmore, hlast, -⟩ := e.exists_digits
  have hlen := e.payload_length
  rw [hbytes, timestampOf_message hmore hlast, timestamp]
  exact hL.server _ (by rw [List.length_drop]; omega)

theorem fresh {L : Libs} (hL : ReadsBigEndian L) {now : Int} (h : ¬ Expired now e.bytes) :
    ¬ (e.timestamp L > 0 ∧ e.timestamp L < now) := by
  rwa [e.timestamp_eq hL]

/-- Without QoS a message is sent the same way to any subscription. -/
theorem processQueueFor_plain {L : Libs} {now : Int} (hq : ¬ e.qos > 0)
    (hnow : ¬ (e.timestamp L > 0 ∧ e.timestamp L < now))
    (stamp : Int) (clientId : Bytes) (sQos : Nat) (d : Dicts) :
    processQueueFor L now stamp clientId sQos e.bytes d = (d, processQueue L 0 e.bytes) := by
  have h := processQueueFor_zero L 0 stamp clientId e.bytes d
  rw [e.processQueueFor_eq (by omega), if_neg hq] at h
  rw [e.processQueueFor_eq hnow, if_neg hq]
  exact h

theorem processQueue_plain {L : Libs} (hq : ¬ e.qos > 0) :
    processQueue L 0 e.bytes = .error .arithNil ∨ ∃ f, processQueue L 0 e.bytes = .ok ⟨f, none, false⟩ := by
  have h := congrArg Prod.snd (processQueueFor_zero L 0 0 [] e.bytes ⟨fun _ => none, fun _ => none⟩)
  rw [e.processQueueFor_eq (by omega), if_neg hq] at h
  simp only at h
  rw [← h]
  cases readUint32 e.rest with
  | none => exact Or.inl rfl
  | some o => exact Or.inr ⟨_, rfl⟩

end Envelope

/-- What is behind the topic and, with QoS, the message id. -/
def Envelope.app (e : Envelope) : Bytes := if e.qos > 0 then e.rest.drop 2 else e.rest

/-- A publication that names its topic and has its offset in front of the payload. -/
def StoredAt (topic : Bytes) (offset : Nat) (m : Bytes) : Prop :=
  ∃ e : Envelope, m = e.bytes ∧ e.topic = topic ∧ readUint32 e.app = some (offset : Int)

theorem StoredAt.publishMessage {topic : Bytes} {offset : Nat} {m : Bytes} (h : StoredAt topic offset m) :
    PublishMessage m := by
  obtain ⟨e, rfl, -, -⟩ := h
  exact e.publishMessage

theorem Envelope.luaRemaining_bytes (e : Envelope) : ∃ index,
    luaRemaining e.bytes.tail 1 0 2 = some (e.payload.length, index) ∧ (e.bytes.drop index) = e.payload := by
  obtain ⟨more, last, hbytes, hmore, hlast, hval⟩ := e.exists_digits
  refine ⟨2 + more.length, ?_, ?_⟩
  · rw [hbytes, List.tail_cons, luaRemaining_digits hmore hlast, hval, Nat.zero_add, Nat.mul_one]
  · rw [hbytes, show 2 + more.length = (more.length + 1) + 1 by omega, List.drop_succ_cons, List.drop_append]
    simp

/-- What is read from a message is that of its envelope. -/
theorem Envelope.app_eq_of_bytes {e e' : Envelope} (h : e.bytes = e'.bytes) : e.app = e'.app := by
  obtain ⟨i, hi, hpay⟩ := e.luaRemaining_bytes
  obtain ⟨j, hj, hpay'⟩ := e'.luaRemaining_bytes
  rw [h, hj] at hi
  have hij : j = i := congrArg Prod.snd (Option.some.inj hi)
  have hpayload : e.payload = e'.payload := by rw [← hpay, ← hpay', h, hij]
  have hflags : e.flags = e'.flags := (List.cons.inj h).1
  have hopen := e.openPayload_eq ⟨int64Be, int64Be⟩
  rw [hpayload, e'.openPayload_eq] at hopen
  have hrest : e'.rest = e.rest := congrArg Opened.rest (Except.ok.inj hopen)
  rw [Envelope.app, Envelope.app, Envelope.qos, Envelope.qos, hflags, hrest]

/-- A message tells one offset. -/
theorem StoredAt.offset_eq {topic : Bytes} {a b : Nat} {m : Bytes} (ha : StoredAt topic a m) (hb : StoredAt topic b m) :
    a = b := by
  obtain ⟨e, rfl, -, he⟩ := ha
  obtain ⟨e', he', -, hb⟩ := hb
  rw [Envelope.app_eq_of_bytes he', hb] at he
  exact_mod_cast (Option.some.inj he).symm

/-! ## A page -/

theorem sendQos_short {stamp : Int} {clientId : Bytes} {sQos : Nat} {qos : UInt8} {o : Opened} (d : Dicts)
    (h : o.rest.length < 6) : (sendQos stamp clientId sQos qos o d).2 = .error .arithNil := by
  rw [sendQos]
  rcases hr : o.rest with _ | ⟨b0, _ | ⟨b1, app⟩⟩
  · rfl
  · rfl
  · have hshort : readUint32 app = none := readUint32_eq_none.2 (by rw [hr] at h; simp at h; omega)
    simp only [hshort]

/-- A message with QoS that is long enough is one that goes out. -/
theorem exists_send {L : Libs} {now : Int} {sQos : Nat} {e : Envelope} (hs : sQos > 0) (hq : e.qos > 0)
    (hnow : ¬ (e.timestamp L > 0 ∧ e.timestamp L < now)) (hlong : ¬ e.rest.length < 6) (clientId : ClientId)
    (stamp : Int) : ∃ x : Send L, x.clientId = clientId ∧ x.recvTime = now ∧ x.stamp = stamp ∧ x.sQos = sQos ∧ x.message = e := by
  match hr : e.rest with
  | [] | [_] =>
    rw [hr] at hlong
    simp at hlong
  | b0 :: b1 :: app =>
    have happ : 4 ≤ app.length := by
      rw [hr] at hlong
      simp at hlong
      omega
    exact ⟨⟨clientId, now, stamp, sQos, e, b0, b1, app, hs, hq, hnow, hr, happ⟩, rfl, rfl, rfl, rfl, rfl⟩

/-- What the client gets for a message with QoS that is sent under `cMsgId`. -/
def Send.frame {L : Libs} (x : Send L) (cMsgId : Nat) : Option Bytes :=
  messageWrite typePublish x.message.qos (utf8Bytes x.message.topic ++ utilityMqttWriteUint16 cMsgId ++ x.app)

theorem Send.processQueueFor_snd {L : Libs} (x : Send L) (d : Dicts) :
    (processQueueFor L x.recvTime x.stamp x.clientId.1 x.sQos x.message.bytes d).2 =
      .ok ⟨x.frame (x.cMsgId d), some (x.cMsgId d), false⟩ := by
  have hrest : (x.message.opened L).rest = x.b0 :: x.b1 :: x.app := x.rest_eq
  have happ : ¬ x.app.length < 4 := not_lt.2 x.app_length
  rw [x.message.processQueueFor_eq x.fresh, if_pos x.qos_pos, sendQos_snd hrest, if_neg happ, if_pos x.sQos_pos]
  rfl

/-- The messages are without QoS, and those that can be sent are among `sent`. -/
def PlainWritten (L : Libs) (t : List (Nat × Bytes)) (sent : List Bytes) : Prop :=
  ∀ e ∈ t, ∃ f, processQueue L 0 e.2 = .ok ⟨f, none, false⟩ ∧ ∀ b ∈ f, b ∈ sent

theorem PlainWritten.nil (L : Libs) (sent : List Bytes) : PlainWritten L [] sent := by
  intro e he
  cases he

theorem PlainWritten.cons {L : Libs} {offset : Nat} {m : Bytes} {t : List (Nat × Bytes)} {f : Option Bytes}
    {sent : List Bytes} (hm : processQueue L 0 m = .ok ⟨f, none, false⟩) (h : PlainWritten L t sent) :
    PlainWritten L ((offset, m) :: t) (f.toList ++ sent) := by
  rintro e he
  rcases List.mem_cons.1 he with rfl | he
  · refine ⟨f, hm, fun b hb => List.mem_append_left _ ?_⟩
    rwa [Option.mem_toList]
  · obtain ⟨g, hg, hin⟩ := h e he
    exact ⟨g, hg, fun b hb => List.mem_append_right _ (hin b hb)⟩

/-- What a page does when none of its messages is expired when it is looked at. -/
inductive PageSent (L : Libs) (clock : PageClock) (clientId : ClientId) (topic : Bytes) (maxoffset : Int)
    (t : List (Nat × Bytes)) (d : Dicts) : Dicts × QosPage → Prop
  /-- All messages are without QoS. -/
  | all (sent : List Bytes) (h : PlainWritten L t sent) :
    PageSent L clock clientId topic maxoffset t d (d, ⟨sent, some maxoffset, none, false⟩)
  | raised (d' : Dicts) (sent : List Bytes) (existedExpire : Bool) (hd : d'.outstanding = d.outstanding) :
    PageSent L clock clientId topic maxoffset t d (d', ⟨sent, none, none, existedExpire⟩)
  /-- Up to the first message with QoS, which goes out as `x`. -/
  | upTo (d' : Dicts) (sent : List Bytes) (pre : List (Nat × Bytes)) (offset : Nat) (m : Bytes)
    (post : List (Nat × Bytes)) (x : Send L) (ht : t = pre ++ (offset, m) :: post) (h : PlainWritten L pre sent)
    (hclient : x.clientId = clientId) (hstamp : ∃ n, x.stamp = clock.stamp n) (hmessage : x.message.bytes = m)
    (htopic : x.sent.topic = topic) (hoffset : x.sent.offset = offset)
    (hframe : ∀ f ∈ x.frame (x.cMsgId d), f ∈ sent)
    (hd : d'.outstanding = ((d.setOutstanding clientId.1 topic (some (.msgId (x.cMsgId d)))).setOutstanding clientId.1
      (decimal (x.cMsgId d)) (some (.cacheVal x.sent.cacheVal))).outstanding) :
    PageSent L clock clientId topic maxoffset t d (d', ⟨sent, some (offset : Int), some (x.cMsgId d, x.stamp), false⟩)

/-- A message without QoS in front. -/
theorem PageSent.cons {L : Libs} {clock : PageClock} {clientId : ClientId} {topic : Bytes} {maxoffset : Int}
    {t : List (Nat × Bytes)} {d : Dicts} {r : Dicts × QosPage} {offset : Nat} {m : Bytes} {f : Option Bytes}
    (hm : processQueue L 0 m = .ok ⟨f, none, false⟩) (h : PageSent L clock clientId topic maxoffset t d r) :
    PageSent L clock clientId topic maxoffset ((offset, m) :: t) d (r.1, { r.2 with sent := f.toList ++ r.2.sent }) := by
  cases h with
  | all sent h => exact .all _ (h.cons hm)
  | raised d' sent existedExpire hd => exact .raised d' _ existedExpire hd
  | upTo d' sent pre o m' post x ht h hclient hstamp hmessage htopic hoffset hframe hd =>
    refine .upTo d' _ ((offset, m) :: pre) o m' post x (by rw [ht]; rfl) (h.cons hm) hclient hstamp hmessage htopic
      hoffset (fun g hg => List.mem_append_right _ (hframe g hg)) hd

section Page

variable {L : Libs} {clock : PageClock} {clientId : ClientId} {topic : Bytes} {sQos : Nat}

/-- **One page.** The induction is on the messages; those before a message with QoS change nothing. -/
theorem sendValsFor_spec (hL : ReadsBigEndian L) (hs : sQos > 0) (maxoffset : Int) {t : List (Nat × Bytes)}
    (hstored : ∀ e ∈ t, StoredAt topic e.1 e.2) (hfresh : ∀ e ∈ t, ∀ n, ¬ Expired (clock.recvTime n) e.2)
    (hsort : t.Pairwise fun a b => a.1 < b.1) {consumerOffset : Int} (hlow : ∀ e ∈ t, consumerOffset < e.1)
    (n : Nat) (d : Dicts) :
    PageSent L clock clientId topic maxoffset t d
      (sendValsFor L clock clientId.1 sQos maxoffset n t consumerOffset false d) := by
  induction t generalizing consumerOffset n with
  | nil => exact .all [] (.nil L [])
  | cons e t ih =>
    obtain ⟨offset, m⟩ := e
    obtain ⟨env, rfl, rfl, hoff⟩ := hstored (offset, m) List.mem_cons_self
    have hexp : ¬ Expired (clock.recvTime n) env.bytes := hfresh (offset, env.bytes) List.mem_cons_self n
    have hnow := env.fresh hL hexp
    have hgt : (offset : Int) > consumerOffset := hlow (offset, env.bytes) List.mem_cons_self
    rw [sendValsFor]
    by_cases hq : env.qos > 0
    · by_cases hshort : (env.opened L).rest.length < 6
      · have hd : (sendQos (clock.stamp n) clientId.1 sQos env.qos (env.opened L) d).1.outstanding = d.outstanding :=
          outstanding_sendQos_short d hshort
        have herr : (sendQos (clock.stamp n) clientId.1 sQos env.qos (env.opened L) d).2 = .error .arithNil :=
          sendQos_short d hshort
        rw [env.processQueueFor_eq hnow, if_pos hq,
          ← Prod.mk.eta (p := sendQos (clock.stamp n) clientId.1 sQos env.qos (env.opened L) d), herr]
        exact .raised _ [] false hd
      · obtain ⟨x, hclient, hrecv, hstamp, rfl, rfl⟩ := exists_send hs hq hnow hshort clientId (clock.stamp n)
        subst hclient
        have ho : readUint32 x.app = some (offset : Int) := by
          rwa [Envelope.app, if_pos hq, x.rest_eq] at hoff
        rw [← hrecv, ← hstamp,
          ← Prod.mk.eta (p := processQueueFor L x.recvTime x.stamp x.clientId.1 x.sQos x.message.bytes d),
          x.processQueueFor_snd]
        simp only [if_pos hgt, Bool.or_self]
        refine .upTo _ _ [] offset x.message.bytes t x rfl (.nil L _) rfl ⟨n, hstamp⟩ rfl rfl ?_ ?_ (x.processQueueFor_fst d)
        · exact Option.some.inj (x.readUint32_app.symm.trans ho)
        · intro f hf
          rwa [Option.mem_toList]
    · rw [env.processQueueFor_plain hq hnow]
      rcases env.processQueue_plain (L := L) hq with herr | ⟨f, hf⟩
      · rw [herr]
        exact .raised d [] false rfl
      · have hlow' : ∀ a ∈ t, (offset : Int) < a.1 := fun a ha => by exact_mod_cast List.rel_of_pairwise_cons hsort ha
        have hrest := ih (fun a ha => hstored a (List.mem_cons_of_mem _ ha)) (fun a ha => hfresh a (List.mem_cons_of_mem _ ha))
          hsort.of_cons hlow' (n + 1)
        rw [hf]
        simp only [if_pos hgt, Bool.or_self]
        exact hrest.cons hf

/-- A page that the script reads inside the set: its messages are those in the range that are not expired. -/
theorem processSubscribeFor_spec (clientId : ClientId) (hL : ReadsBigEndian L) (hs : sQos > 0) {st : TopicKey}
    {n : Nat} {min pagesize : Int}
    (hreq : RangeRequest st n subMaxRange min pagesize) (hstored : ∀ e ∈ st.zset.entries, StoredAt topic e.1 e.2)
    (hinside : PagesInside st.zset clock.script n min pagesize)
    (hkept : ∀ e ∈ st.zset.entries, ¬ Expired clock.script e.2 → ∀ i, ¬ Expired (clock.recvTime i) e.2) (d : Dicts) :
    ∃ max, min ≤ max ∧ max ≤ n ∧ (processSubscribeFor L clock clientId.1 sQos st d min pagesize).1 = st ∧
      PageSent L clock clientId topic max (unexpired st.zset clock.script min max) d
        (processSubscribeFor L clock clientId.1 sQos st d min pagesize).2 := by
  obtain ⟨max, hread, hle, hiff⟩ := hreq.mqttZrangebyscore_reads hL.redis clock.script
  have hkey : (mqttZrangebyscore L st clock.script subMaxRange min pagesize).1 = st := by
    have hst : (⟨some n, st.zset⟩ : TopicKey) = st := by rw [← hreq.counter]
    rw [mqttZrangebyscore, if_neg (not_lt.2 hreq.size_le), currentOffset_of_counter hreq.counter]
    exact hst
  refine ⟨max, hle, hiff.2 hinside, ?_⟩
  rw [processSubscribeFor, ← Prod.mk.eta (p := mqttZrangebyscore L st clock.script subMaxRange min pagesize), hread, hkey]
  refine ⟨rfl, ?_⟩
  simp only
  refine sendValsFor_spec hL hs max (fun e he => hstored e (mem_unexpired.1 he).1)
    (fun e he => hkept e (mem_unexpired.1 he).1 (mem_unexpired.1 he).2.2.2)
    ((hreq.onePerScore.rangeByScore_sorted _).filter _) (fun e he => ?_) 0 d
  have := (mem_unexpired.1 he).2.1
  have := hreq.min_pos
  omega

end Page

/-! ## The whole pass -/

/-- The entries with a score above `a` and below `b` are expired, or without QoS and written. -/
def HandledIn (L : Libs) (now : Int) (zset : SortedSet Nat Bytes) (sent : List Bytes) (a b : Int) : Prop :=
  ∀ e ∈ zset.entries, a < e.1 → (e.1 : Int) < b →
    Expired now e.2 ∨ ∃ f, processQueue L 0 e.2 = .ok ⟨f, none, false⟩ ∧ ∀ x ∈ f, x ∈ sent

/-- A message of the page is sent: those below it are handled. -/
theorem handledIn_pre {L : Libs} {now a b : Int} {zset : SortedSet Nat Bytes} {sent : List Bytes}
    {pre post : List (Nat × Bytes)} {e : Nat × Bytes} (hone : zset.OnePerScore)
    (ht : unexpired zset now (a + 1) b = pre ++ e :: post) (h : PlainWritten L pre sent) :
    HandledIn L now zset sent a e.1 := by
  intro x hx hax hxe
  have heb : (e.1 : Int) ≤ b := (mem_unexpired.1 (ht ▸ List.mem_append_right pre List.mem_cons_self)).2.2.1
  by_cases hexp : Expired now x.2
  · exact Or.inl hexp
  have hmem : x ∈ pre ++ e :: post := ht ▸ mem_unexpired.2 ⟨hx, by omega, by omega, hexp⟩
  have hsort : (unexpired zset now (a + 1) b).Pairwise fun x y => x.1 < y.1 := (hone.rangeByScore_sorted _).filter _
  rw [ht, List.pairwise_append] at hsort
  rcases List.mem_append.1 hmem with hpre | hpost
  · exact Or.inr (h x hpre)
  · rcases List.mem_cons.1 hpost with rfl | hpost
    · exact absurd hxe (lt_irrefl _)
    · have := List.rel_of_pairwise_cons hsort.2.1 hpost
      omega

/-- What a pass from `old` does. -/
inductive PassOut (L : Libs) (clock : PageClock) (clientId : ClientId) (topic : Bytes) (n : Nat) (old : Int)
    (s : QosPass) : QosPass → Prop
  | raised (s' : QosPass) (hd : s'.dicts.outstanding = s.dicts.outstanding) (hkey : s'.key = s.key)
    (hc : s'.consumer = s.consumer) (hids : s'.ids = s.ids) : PassOut L clock clientId topic n old s s'
  | advanced (s' : QosPass) (max : Int) (hlt : old < max) (hle : max ≤ n) (hd : s'.dicts = s.dicts)
    (hkey : s'.key = s.key) (hc : s'.consumer = max) (hids : s'.ids = s.ids) (hlook : clock.script ∈ s'.looks)
    (h : HandledIn L clock.script s.key.zset s'.sent old (max + 1)) : PassOut L clock clientId topic n old s s'
  | sent (s' : QosPass) (offset : Nat) (m : Bytes) (x : Send L) (hlt : old < offset)
    (hmem : (offset, m) ∈ s.key.zset.entries) (hclient : x.clientId = clientId) (hstamp : ∃ n, x.stamp = clock.stamp n)
    (hmessage : x.message.bytes = m) (htopic : x.sent.topic = topic) (hoffset : x.sent.offset = offset)
    (hframe : ∀ f ∈ x.frame (x.cMsgId s.dicts), f ∈ s'.sent)
    (hd : s'.dicts.outstanding = ((s.dicts.setOutstanding clientId.1 topic (some (.msgId (x.cMsgId s.dicts)))).setOutstanding
      clientId.1 (decimal (x.cMsgId s.dicts)) (some (.cacheVal x.sent.cacheVal))).outstanding)
    (hkey : s'.key = s.key) (hc : s'.consumer = s.consumer)
    (hids : s'.ids = s.ids ++ [((offset : Int), x.cMsgId s.dicts, x.stamp)]) (hlook : clock.script ∈ s'.looks)
    (h : HandledIn L clock.script s.key.zset s'.sent old offset) : PassOut L clock clientId topic n old s s'

section WholePass

variable {L : Libs} {clock : PageClock} {newoffset old : Int} {clientId : ClientId} {topic : Bytes} {sQos n : Nat} {s : QosPass}

/-- What is asked of a pass that reads behind `old`. -/
structure Readable (clock : PageClock) (topic : Bytes) (n : Nat) (newoffset old : Int) (st : TopicKey) : Prop where
  counter : st.counter = some n
  ring : (n : ℚ) ≤ intMaxRing2
  onePerScore : st.zset.OnePerScore
  scores : ∀ e ∈ st.zset.entries, 1 ≤ e.1 ∧ e.1 ≤ n
  stored : ∀ e ∈ st.zset.entries, StoredAt topic e.1 e.2
  old_nonneg : 0 ≤ old
  new_le : newoffset ≤ n
  near : n ≤ old + subMaxRange
  inside : PagesInside st.zset clock.script n (old + 1) (min (newoffset - old) subPagesize)
  /-- No message expires between the script's look and the server's. -/
  kept : ∀ e ∈ st.zset.entries, ¬ Expired clock.script e.2 → ∀ i, ¬ Expired (clock.recvTime i) e.2

theorem Readable.le (h : Readable clock topic n newoffset old s.key) : n ≤ 1431653333 :=
  not_lt.1 fun hlt => not_lt.2 h.ring (ring2_lt_cast.2 hlt)

theorem Readable.request (h : Readable clock topic n newoffset old s.key) (hlt : old < newoffset) :
    RangeRequest s.key n subMaxRange (old + 1) (min (newoffset - old) subPagesize) where
  counter := h.counter
  ring := by
    have := h.le
    simp only [intMaxRing]
    omega
  onePerScore := h.onePerScore
  scores := h.scores
  messages e he := (h.stored e he).publishMessage
  min_pos := by
    have := h.old_nonneg
    omega
  size_pos := by
    simp only [subPagesize]
    omega
  size_le := by
    simp only [subMaxRange, subPagesize]
    omega
  inside := by
    have := h.new_le
    omega
  near := by
    have := h.near
    omega

/-- One page is the pass, since no message of it is expired for the server. -/
theorem expireProcessFor_spec {clocks : Nat → PageClock} (hL : ReadsBigEndian L) (hs : sQos > 0) (fuel : Nat)
    (hlt : old < newoffset) (h : Readable (clocks 0) topic n newoffset old s.key) :
    PassOut L (clocks 0) clientId topic n old s
      (expireProcessFor L clocks clientId.1 sQos newoffset (fuel + 1) 0 old (newoffset - old) false s) := by
  have hreq := h.request hlt
  obtain ⟨max, hmin, hmax, hkey, hpage⟩ := processSubscribeFor_spec clientId hL hs hreq h.stored h.inside h.kept s.dicts
  have hsize : (if newoffset - old > subPagesize then subPagesize else newoffset - old) = min (newoffset - old) subPagesize := by
    split <;> omega
  rw [expireProcessFor, if_neg (by simp)]
  simp only [Bool.false_eq_true, if_false, hsize]
  generalize processSubscribeFor L (clocks 0) clientId.1 sQos s.key s.dicts (old + 1) (min (newoffset - old) subPagesize) = r at hkey hpage ⊢
  obtain ⟨key, r⟩ := r
  simp only at hkey hpage ⊢
  subst hkey
  cases hpage with
  | all sent hplain =>
    have hnonneg := h.old_nonneg
    have hle := h.le
    have hcur : (if max ≥ intMaxRing then 0 else max) = max := if_neg (by simp only [intMaxRing]; omega)
    simp only [if_neg (show ¬ max = -1 by omega), hcur, Bool.false_eq_true, if_false, ite_self]
    refine .advanced _ max (by omega) hmax rfl rfl rfl rfl (List.mem_append_right _ List.mem_cons_self) fun e he hoe hem => ?_
    by_cases hexp : Expired (clocks 0).script e.2
    · exact Or.inl hexp
    · obtain ⟨f, hf, hin⟩ := hplain e (mem_unexpired.2 ⟨he, by omega, by omega, hexp⟩)
      exact Or.inr ⟨f, hf, fun x hx => List.mem_append_right _ (hin x hx)⟩
  | raised d' sent existedExpire hd => exact .raised _ hd rfl rfl rfl
  | upTo d' sent pre offset m post x ht hplain hclient hstamp hmessage htopic hoffset hframe hd =>
    have hmem : (offset, m) ∈ unexpired s.key.zset (clocks 0).script (old + 1) max := by
      rw [ht]
      exact List.mem_append_right pre List.mem_cons_self
    obtain ⟨hin, hlow, -, -⟩ := mem_unexpired.1 hmem
    have hpre := handledIn_pre h.onePerScore ht hplain
    simp only [Bool.false_eq_true, if_false]
    refine .sent _ offset m x (by simp only at hlow; omega) hin hclient hstamp hmessage htopic hoffset ?_ hd rfl rfl rfl
      (List.mem_append_right _ List.mem_cons_self) ?_
    · intro f hf
      exact List.mem_append_right _ (hframe f hf)
    · intro e he hoe heo
      refine (hpre e he hoe heo).imp_right ?_
      rintro ⟨f, hf, hx⟩
      exact ⟨f, hf, fun x hx' => List.mem_append_right _ (hx x hx')⟩

/-- Where a pass for a subscription with QoS goes on. -/
theorem passFor_spec {clock : PassClock} (hL : ReadsBigEndian L) (hs : sQos > 0)
    (hfrom : resendFrom s.dicts clientId.1 topic clock.resend newoffset s.consumer = .ok old) (hlt : old < newoffset)
    (h : Readable (clock.page 0) topic n newoffset old s.key) :
    PassOut L (clock.page 0) clientId topic n old s (passFor L clock newoffset clientId.1 topic sQos s) := by
  have hle := h.le
  have hnew := h.new_le
  have hnear := h.near
  have hend : ¬ old ≥ intMaxRing := by
    simp only [intMaxRing]
    omega
  have hthird : ¬ (old : ℚ) > intMaxRing2 := by
    have hold : (old : ℚ) ≤ n := by exact_mod_cast (show old ≤ n by omega)
    exact not_lt.2 (hold.trans h.ring)
  have hadjust : ringAdjust old newoffset = (old, newoffset) := by
    rw [ringAdjust, if_neg hend, if_neg fun hx => hthird hx.1]
  have hfuel : (newoffset - old + 2).toNat = (newoffset - old + 1).toNat + 1 := by omega
  rw [passFor, if_pos hs, hfrom]
  simp only [if_neg hend, hadjust, if_pos (show newoffset > old from hlt),
    if_neg (show ¬ newoffset > old + subMaxRange by omega), hfuel]
  exact expireProcessFor_spec hL hs _ hlt h

/-- A message in flight is sent again after 60 seconds; before that the pass ends. -/
theorem resendFrom_cacheVal {d : Dicts} {v : Outstanding} {m : Sent} (hge : -2 ^ 31 ≤ m.timestamp)
    (htime : m.timestamp < 2 ^ 31) (h1 : d.getOutstanding clientId.1 topic = some v)
    (h2 : d.getOutstanding clientId.1 v.bytes = some (.cacheVal m.cacheVal)) (now newoffset consumer : Int) :
    resendFrom d clientId.1 topic now newoffset consumer =
      .ok (if ceilSeconds now - m.timestamp < 60 then newoffset else m.offset - 1) := by
  have hid : utilityMqttWriteUint16 m.pMsgId = [UInt8.ofNat (m.pMsgId / 256), UInt8.ofNat m.pMsgId] := by
    rw [writeUint16_eq_toBe]
    simp [toBe]
  have hdrop : (uint32ToBytes m.offset ++ (uint32ToBytes m.timestamp ++ (utf8Bytes m.srcCid ++ utf8Bytes m.topic))).drop 4 =
      uint32ToBytes m.timestamp ++ (utf8Bytes m.srcCid ++ utf8Bytes m.topic) := List.drop_left' rfl
  have hdrop' : (uint32ToBytes m.offset ++ (uint32ToBytes m.timestamp ++ (utf8Bytes m.srcCid ++ utf8Bytes m.topic))).drop 8 =
      utf8Bytes m.srcCid ++ utf8Bytes m.topic := by
    rw [← List.append_assoc]
    exact List.drop_left' rfl
  have hread : decodeUtf8 (utf8Bytes m.srcCid ++ utf8Bytes m.topic) = .ok (m.srcCid, utf8Bytes m.topic) :=
    Diversion.decodeUtf8_write m.srcCid_length _
  have hbytes : Outstanding.bytes (.cacheVal m.cacheVal) = m.cacheVal := rfl
  rw [resendFrom, h1]
  simp only [h2, hbytes]
  rw [Sent.cacheVal, cacheValOf, hid, List.cons_append, List.cons_append, List.nil_append]
  simp only [readUint32_append m.offset_ge m.offset_lt, hdrop, readUint32_append hge htime, hdrop', hread]
  split <;> rfl

end WholePass

end NgxPlus.Mqtt
