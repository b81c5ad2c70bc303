import NgxPlus.Diversion.LuaCodec
import NgxPlus.Mqtt.Zadd

/-!
# A pass over a subscribed topic

| here | there |
| --- | --- |
| `luaRemaining`      | the loop that reads the remaining length (`strict.lua:147-156`, `mqtt_server_module.lua:187-193`) |
| `redisKeeps`        | whether a message is not yet expired for the script (`strict.lua:141-169`); `none` where it fails |
| `mqttZrangebyscore` | `__f_mqtt_zrangebyscore` (`strict.lua:91-189`) |
| `messageWrite`      | the frame that `message_write` sends (`mqtt.lua:583-627`), QoS without other flags |
| `processQueue`      | `processQueue` (`mqtt_server_module.lua:179-268`) for a subscription with QoS 0 |
| `sendVals`, `processSubscribe` | `process_subscribe` (`:270-322`); what it takes from the message cache is thrown away, so every page comes from `_multi_hget4bl` (`:145-177`) |
| `expireProcess`, `subscribePass` | the body for one plain topic of `mqtt_process_subscribe` (`:370-457`) |

`Libs` is what is not in the repository: the script's `readInt64`, and `utility_lua_read_int64`
behind `MQTT.Utility.readUint64`. The websocket accepts what it is given. A message of type
`RESERVED` goes to `parse_message_reserved`, which is left out.
-/

namespace NgxPlus.Mqtt

open ByteMem
open NgxPlus.Diversion (LuaError decodeUtf8)

structure Libs where
  redisReadInt64 : Bytes → Int
  readUint64 : Bytes → Int

/-- The remaining length and the index of its last byte, from the byte at `index` on. -/
def luaRemaining : Bytes → Nat → Nat → Nat → Option (Nat × Nat)
  | [], _, _, _ => none
  | digit :: ds, multiplier, acc, index =>
    let acc := acc + digit.toNat % 128 * multiplier
    if digit.toNat < 128 then some (acc, index) else luaRemaining ds (multiplier * 128) acc (index + 1)

def typePublish : UInt8 := 0x03
def typeReserved : UInt8 := 0x0f

/-! ## The script -/

def redisKeeps (L : Libs) (recvTime : Int) (buffer : Bytes) : Option Bool :=
  match buffer with
  | [] => none
  | messageTypeFlags :: rest =>
    match luaRemaining rest 1 0 2 with
    | none => none
    | some (remainingLen, index) =>
      if buffer.length > remainingLen ∧ messageTypeFlags >>> 4 = typePublish then
        let timestamp := L.redisReadInt64 ((buffer.drop (index + 2)).take 9)
        some (!(decide (timestamp > 0) && decide (timestamp < recvTime)))
      else some true

inductive RangeReply
  /-- An error, with `_max`. -/
  | err (max : Int)
  /-- `read remaining_len error`, or a buffer that is not a message. -/
  | raised
  | vals (t : List (Nat × Bytes)) (max : Int)
deriving DecidableEq, Repr

/-- `_max` after the ring is looked at. -/
def clampMax (offset max : Int) : Int :=
  if (offset : ℚ) < intMaxRing1 ∧ (max : ℚ) > intMaxRing2 then
    if max > intMaxRing then intMaxRing else max
  else if (offset : ℚ) > intMaxRing2 then
    if max > offset then offset else max
  else max

/-- A call goes on only behind the last score that it found, so the number of members bounds
the calls. -/
def zrangeLoop (L : Libs) (recvTime maxlimit : Int) (zset : SortedSet Nat Bytes) (offset : Int) :
    Nat → Int → Int → RangeReply
  | 0, _, _ => .raised
  | fuel + 1, min, pagesize =>
    let max := pagesize + min - 1
    if pagesize > maxlimit then .err max
    else
      let max := clampMax offset max
      if min > max then .err max
      else
        let (min, max) :=
          if maxlimit > 1 ∧ offset - min > maxlimit then (offset - maxlimit, offset - maxlimit + pagesize)
          else (min, max)
        let t := zset.rangeByScore fun score => decide (min ≤ score) && decide ((score : Int) ≤ max)
        match t.filterM fun e => redisKeeps L recvTime e.2 with
        | none => .raised
        | some kept =>
          if kept.length < t.length then
            if max ≥ offset ∨ max ≥ intMaxRing then .vals kept max
            else
              let next := match t.getLast? with
                | some e => (e.1 : Int) + 1
                | none => min
              match zrangeLoop L recvTime maxlimit zset offset fuel next (pagesize - kept.length) with
              | .vals t1 max => .vals (kept ++ t1) max
              | .err max => .vals kept max
              | .raised => .raised
          else .vals kept max

/-- The script also keeps the counter it has to rebuild. -/
def mqttZrangebyscore (L : Libs) (st : TopicKey) (recvTime maxlimit min pagesize : Int) : TopicKey × RangeReply :=
  if pagesize > maxlimit then (st, .err (pagesize + min - 1))
  else
    let offset := currentOffset st
    (⟨some offset, st.zset⟩, zrangeLoop L recvTime maxlimit st.zset offset (st.zset.entries.length + 1) min pagesize)

/-! ## One message -/

def maxPayloadLength : Nat := 268435455

/-- Seven bits a byte; a payload that is not too long takes four. -/
def encodeRemaining : Nat → Nat → Bytes
  | 0, _ => []
  | fuel + 1, n =>
    if n / 128 > 0 then UInt8.ofNat (n % 128 + 128) :: encodeRemaining fuel (n / 128) else [UInt8.ofNat (n % 128)]

/-- `none` when the payload is too long to be sent. -/
def messageWrite (messageType qosLevel : UInt8) (payload : Bytes) : Option Bytes :=
  if payload.length > maxPayloadLength then none
  else some (((messageType <<< 4) ||| ((qosLevel &&& 0x03) <<< 1)) :: (encodeRemaining 5 payload.length ++ payload))

structure QueueOut where
  sent : Option Bytes
  cMsgId : Option Nat
  existedExpire : Bool
deriving DecidableEq, Repr

def processQueue (L : Libs) (now : Int) (buffer : Bytes) : Except LuaError QueueOut :=
  match buffer with
  | [] => .error .arithNil
  | messageTypeFlags :: rest =>
    let qos := (messageTypeFlags &&& 0x06) >>> 1
    match luaRemaining rest 1 0 2 with
    | none => .ok ⟨none, none, false⟩
    | some (remainingLen, index) =>
      if buffer.length < remainingLen then .ok ⟨none, none, false⟩
      else
        let payload := (buffer.drop index).take remainingLen
        if messageTypeFlags >>> 4 = typePublish then do
          let timestamp := L.readUint64 (payload.drop 2)
          let (_, p) ← decodeUtf8 (payload.drop 10)
          let (_, fromTopic) ← decodeUtf8 p
          let (topic, p) ← decodeUtf8 fromTopic
          if timestamp > 0 ∧ timestamp < now then .ok ⟨none, none, true⟩
          else if qos > 0 then
            match p with
            | b0 :: b1 :: p =>
              -- `readUint32` of the offset
              if p.length < 4 then .error .arithNil
              else .ok ⟨messageWrite typePublish qos (utilityMqttWriteUint16 topic.length ++ topic ++ b0 :: b1 :: p),
                some (b0.toNat * 256 + b1.toNat), false⟩
            | _ => .error .arithNil
          else if p.length < 4 then .error .arithNil
          else .ok ⟨messageWrite typePublish qos fromTopic, none, false⟩
        else if messageTypeFlags >>> 4 = typeReserved then .ok ⟨none, none, false⟩
        else .ok ⟨some buffer, none, false⟩

/-! ## One page -/

/-- What is sent, and what `process_subscribe` returns; `offset` is `none` when an error is
raised. -/
structure Page where
  sent : List Bytes
  offset : Option Int
  cMsgId : Option Nat
  existedExpire : Bool
deriving DecidableEq, Repr

def sendVals (L : Libs) (now maxoffset : Int) : List (Nat × Bytes) → Int → Bool → Page
  | [], _, existedExpire => ⟨[], some maxoffset, none, existedExpire⟩
  | (offset, buffer) :: vals, consumerOffset, existedExpire =>
    match processQueue L now buffer with
    | .error _ => ⟨[], none, none, existedExpire⟩
    | .ok q =>
      let consumerOffset := if (offset : Int) > consumerOffset then (offset : Int) else consumerOffset
      let existedExpire := q.existedExpire || existedExpire
      match q.cMsgId with
      | some cMsgId => ⟨q.sent.toList, some consumerOffset, some cMsgId, existedExpire⟩
      | none =>
        let page := sendVals L now maxoffset vals consumerOffset existedExpire
        { page with sent := q.sent.toList ++ page.sent }

def subMaxRange : Int := 9999999
def subPagesize : Int := 10

def processSubscribe (L : Libs) (now : Int) (st : TopicKey) (minoffset pagesize : Int) : TopicKey × Page :=
  match mqttZrangebyscore L st now subMaxRange minoffset pagesize with
  | (st, .vals t max) => (st, sendVals L now max t (-1) false)
  | (st, _) => (st, ⟨[], none, none, false⟩)

/-! ## A pass -/

structure Pass where
  key : TopicKey
  consumer : Int
  sent : List Bytes

/-- From the label `expire_process` on. -/
def expireProcess (L : Libs) (now newoffset : Int) : Nat → Int → Int → Bool → Pass → Pass
  | 0, _, _, _, s => s
  | fuel + 1, oldoffset, pagesize, existedExpire, s =>
    if existedExpire ∧ pagesize = newoffset - oldoffset then s
    else
      let pagesize :=
        if existedExpire then newoffset - oldoffset
        else if pagesize > subPagesize then subPagesize else pagesize
      let (key, page) := processSubscribe L now s.key (oldoffset + 1) pagesize
      let s : Pass := ⟨key, s.consumer, s.sent ++ page.sent⟩
      match page.offset with
      | none => s
      | some consumerOffset =>
        if page.cMsgId = none then
          if consumerOffset = -1 then s
          else
            let consumerOffset := if consumerOffset ≥ intMaxRing then 0 else consumerOffset
            let s := { s with consumer := consumerOffset }
            if consumerOffset ≥ newoffset then s
            else if page.existedExpire then expireProcess L now newoffset fuel consumerOffset pagesize true s
            else s
        else if page.existedExpire then expireProcess L now newoffset fuel oldoffset pagesize true s
        else s

/-- `oldoffset` and `newoffset` after the ring is looked at. -/
def ringAdjust (oldoffset newoffset : Int) : Int × Int :=
  if oldoffset ≥ intMaxRing then (0, newoffset)
  else if (oldoffset : ℚ) > intMaxRing2 ∧ (newoffset : ℚ) < intMaxRing1 then (oldoffset, intMaxRing)
  else (oldoffset, newoffset)

/-- With the offset `newoffset` found for the topic. An `oldoffset` of 0 for the end of the ring
is stored; otherwise it is the stored one. -/
def subscribePass (L : Libs) (now newoffset : Int) (s : Pass) : Pass :=
  let (oldoffset, newoffset) := ringAdjust s.consumer newoffset
  let s := { s with consumer := oldoffset }
  if newoffset > oldoffset then
    let oldoffset := if newoffset > oldoffset + subMaxRange then newoffset - subMaxRange else oldoffset
    expireProcess L now newoffset (newoffset - oldoffset + 2).toNat oldoffset (newoffset - oldoffset) false s
  else s

/-! ## Messages that are written -/

/-- What the subscriber gets for a message that does not expire. -/
def frame (L : Libs) (m : Bytes) : Bytes :=
  match processQueue L 0 m with
  | .ok ⟨some sent, _, _⟩ => sent
  | _ => []

/-- A message that is written with QoS 0. -/
def Qos0 (L : Libs) (m : Bytes) : Prop := processQueue L 0 m = .ok ⟨some (frame L m), none, false⟩

/-- Neither the script nor the server finds the message expired. -/
def Fresh (L : Libs) (now : Int) (m : Bytes) : Prop :=
  redisKeeps L now m ≠ some false ∧ ∀ q, processQueue L now m = .ok q → q.existedExpire = false

theorem redisKeeps_of_fresh {L : Libs} {now : Int} {m : Bytes} (hq : Qos0 L m) (hf : Fresh L now m) :
    redisKeeps L now m = some true := by
  rw [Qos0] at hq
  obtain ⟨hk, -⟩ := hf
  cases m with
  | nil => simp [processQueue] at hq
  | cons b rest =>
    cases hr : luaRemaining rest 1 0 2 with
    | none => simp [processQueue, hr] at hq
    | some r =>
      simp only [redisKeeps, hr] at hk ⊢
      split at hk
      · rename_i h
        rw [if_pos h]
        exact congrArg some (Bool.eq_true_of_not_eq_false fun hf => hk (congrArg some hf))
      · rename_i h
        rw [if_neg h]

/-- Only the expiry depends on the time. -/
theorem processQueue_of_fresh {L : Libs} {now : Int} {m : Bytes} (hq : Qos0 L m) (hf : Fresh L now m) :
    processQueue L now m = .ok ⟨some (frame L m), none, false⟩ := by
  have hexp := hf.2
  rw [Qos0] at hq
  rw [← hq]
  cases m with
  | nil => rfl
  | cons b rest =>
    cases hr : luaRemaining rest 1 0 2 with
    | none => simp only [processQueue, hr]
    | some r =>
      simp only [processQueue, hr] at hexp ⊢
      by_cases hlen : (b :: rest).length < r.1
      · rw [if_pos hlen, if_pos hlen]
      rw [if_neg hlen] at hexp ⊢
      rw [if_neg hlen]
      by_cases htype : b >>> 4 = typePublish
      · rw [if_pos htype] at hexp ⊢
        rw [if_pos htype]
        -- an error while decoding is the same at any time
        cases h1 : decodeUtf8 ((((b :: rest).drop r.2).take r.1).drop 10) with
        | error e => rfl
        | ok v1 =>
          cases h2 : decodeUtf8 v1.2 with
          | error e => simp only [h2, bind, Except.bind]
          | ok v2 =>
            cases h3 : decodeUtf8 v2.2 with
            | error e => simp only [h2, h3, bind, Except.bind]
            | ok v3 =>
              simp only [h1, h2, h3, bind, Except.bind] at hexp ⊢
              generalize L.readUint64 ((((b :: rest).drop r.2).take r.1).drop 2) = timestamp at hexp ⊢
              have hnow : ¬ (timestamp > 0 ∧ timestamp < now) := by
                intro h
                rw [if_pos h] at hexp
                exact absurd (hexp _ rfl) (by simp)
              have hzero : ¬ (timestamp > 0 ∧ timestamp < 0) := by omega
              rw [if_neg hnow, if_neg hzero]
      · rw [if_neg htype, if_neg htype]

/-! ## A page of messages that are all written -/

theorem filterM_eq_filter {α : Type} {f : α → Option Bool} {g : α → Bool} {t : List α}
    (h : ∀ a ∈ t, f a = some (g a)) : t.filterM f = some (t.filter g) := by
  have haux : ∀ acc, t.filterAuxM f acc = some ((t.filter g).reverse ++ acc) := by
    induction t with
    | nil => intro acc; rfl
    | cons a t ih =>
      intro acc
      rw [List.filterAuxM, h a (by simp)]
      cases hg : g a with
      | true => simpa [hg] using ih (fun b hb => h b (by simp [hb])) (a :: acc)
      | false => simpa [hg] using ih (fun b hb => h b (by simp [hb])) acc
  rw [List.filterM, haux]
  simp

theorem filterM_eq_self {α : Type} {f : α → Option Bool} {t : List α} (h : ∀ a ∈ t, f a = some true) :
    t.filterM f = some t := by
  rw [filterM_eq_filter h, List.filter_true]

theorem sendVals_eq {L : Libs} {now : Int} (maxoffset consumerOffset : Int) {t : List (Nat × Bytes)}
    (h : ∀ e ∈ t, processQueue L now e.2 = .ok ⟨some (frame L e.2), none, false⟩) :
    sendVals L now maxoffset t consumerOffset false =
      ⟨t.map fun e => frame L e.2, some maxoffset, none, false⟩ := by
  induction t generalizing consumerOffset with
  | nil => rfl
  | cons e t ih =>
    simp only [sendVals, h e (by simp), Bool.or_self, ih _ fun a ha => h a (by simp [ha])]
    rfl

theorem clampMax_eq {offset max : Int} (hmax : max ≤ intMaxRing)
    (hoff : (offset : ℚ) > intMaxRing2 → max ≤ offset) : clampMax offset max = max := by
  unfold clampMax
  split
  · rw [if_neg (by omega)]
  · split
    · rename_i h
      rw [if_neg (by have := hoff h; omega)]
    · rfl

/-- No message expires, so one call is enough. -/
theorem zrangeLoop_eq {L : Libs} {recvTime maxlimit offset min pagesize : Int} {zset : SortedSet Nat Bytes}
    {t : List (Nat × Bytes)} (fuel : Nat) (hlimit : pagesize ≤ maxlimit) (hpos : 0 < pagesize)
    (hclamp : clampMax offset (pagesize + min - 1) = pagesize + min - 1) (hnear : offset - min ≤ maxlimit)
    (ht : zset.rangeByScore (fun score => decide (min ≤ score) && decide ((score : Int) ≤ pagesize + min - 1)) = t)
    (hkeep : ∀ e ∈ t, redisKeeps L recvTime e.2 = some true) :
    zrangeLoop L recvTime maxlimit zset offset (fuel + 1) min pagesize = .vals t (pagesize + min - 1) := by
  have hle : ¬ min > pagesize + min - 1 := by omega
  have hin : ¬ (maxlimit > 1 ∧ offset - min > maxlimit) := by omega
  simp only [zrangeLoop, hclamp, if_neg hlimit.not_gt, if_neg hle, if_neg hin, ht,
    filterM_eq_self hkeep, lt_irrefl, if_false]

section

variable {L : Libs} {now min pagesize oldoffset : Int} {st : TopicKey} {t : List (Nat × Bytes)}

/-- The page that begins at `min` is `t`. -/
structure PageIs (L : Libs) (now : Int) (st : TopicKey) (min pagesize : Int) (t : List (Nat × Bytes)) : Prop where
  pos : 0 < pagesize
  limit : pagesize ≤ subMaxRange
  clamp : clampMax (currentOffset st) (pagesize + min - 1) = pagesize + min - 1
  near : (currentOffset st : Int) - min ≤ subMaxRange
  range : st.zset.rangeByScore
    (fun score => decide (min ≤ score) && decide ((score : Int) ≤ pagesize + min - 1)) = t
  qos0 : ∀ e ∈ t, Qos0 L e.2
  fresh : ∀ e ∈ t, Fresh L now e.2

theorem PageIs.processSubscribe_eq (h : PageIs L now st min pagesize t) :
    processSubscribe L now st min pagesize =
      (⟨some (currentOffset st), st.zset⟩, ⟨t.map fun e => frame L e.2, some (pagesize + min - 1), none, false⟩) := by
  have hloop := zrangeLoop_eq st.zset.entries.length h.limit h.pos h.clamp h.near h.range
    fun e he => redisKeeps_of_fresh (h.qos0 e he) (h.fresh e he)
  have hsend := sendVals_eq (pagesize + min - 1) (-1)
    fun e he => processQueue_of_fresh (h.qos0 e he) (h.fresh e he)
  simp only [processSubscribe, mqttZrangebyscore, if_neg h.limit.not_gt, hloop, hsend]

/-- The first page of a pass is its last one. -/
theorem PageIs.expireProcess_eq (newoffset : Int) (fuel : Nat) {p : Int} {s : Pass} (hold : 0 ≤ oldoffset)
    (hp : (if pagesize > subPagesize then subPagesize else pagesize) = p)
    (h : PageIs L now s.key (oldoffset + 1) p t) :
    expireProcess L now newoffset (fuel + 1) oldoffset pagesize false s =
      ⟨⟨some (currentOffset s.key), s.key.zset⟩, if oldoffset + p ≥ intMaxRing then 0 else oldoffset + p,
        s.sent ++ t.map fun e => frame L e.2⟩ := by
  have hmax : p + (oldoffset + 1) - 1 = oldoffset + p := by omega
  have hne : oldoffset + p ≠ -1 := by have := h.pos; omega
  simp only [expireProcess, Bool.false_eq_true, false_and, if_false, hp, h.processSubscribe_eq, hmax, if_true,
    if_neg hne, ite_self]

end

end NgxPlus.Mqtt
