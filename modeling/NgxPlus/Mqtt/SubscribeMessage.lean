import NgxPlus.Diversion.LuaCodec
import NgxPlus.Mqtt.Area
import NgxPlus.Mqtt.Arguments

/-!
# The SUBSCRIBE message (`parse_message_subscribe`, `mqtt.lua:1075-1198`)

| here | there |
| --- | --- |
| `SubscribeTable`    | a `Subscribe` table: the numbers in it, but for `qos`, and `topicFilter` |
| `Subscriber`        | the fields of an `MQTT.protocol`, and the worker's `AREA_SUBSCRIBEMAP` |
| `splitTopic`        | the topic and its arguments (`:1110-1137`) |
| `chooseMin`         | where `Subscribe.min` comes from (`:1139-1160`) |
| `subscribePair`     | one round (`:1102-1188`) |
| `subscribeLoop`     | `while (index < remaining_length)`, with the 1-based index |
| `parseMessageSubscribe` | the function; `process` is `mqtt_process_subscribe` |

The tables are shared: `Subscribe` is stored (`:1172`) before its `qos` is set to 0 for a wildcard
topic (`:1185`), and the stored one changes with it. `obj_tmp` (`:1099`) is what `MQTT.get` returns
for the client id: the entry that an accepted `CONNECT` makes (`mqtt.lua:969`), or `nil` where
there is none. Before a `CONNECT` the client id is `nil` and `MQTT.get` returns the whole area, or
`nil` while no session of the worker ever had an entry. A wildcard topic sets a field of `obj_tmp`
(`:1184`), which raises unless that is a table. Nothing else in the loop touches the area, so
`setWildcard` looks `obj_tmp` up where it is used. `eventNotify` does nothing with a `SUBSCRIBE`
(`mqtt_server_module.lua:54-82`).
-/

namespace NgxPlus.Mqtt

open ByteMem Decode
open NgxPlus.Diversion (encodeUtf8 encodeUtf8_ok utf8Bytes)

structure SubscribeTable where
  numbers : Numbers
  qos : Nat
  topicFilter : Bytes

abbrev SubsMap := Bytes → Option SubscribeTable

structure Subscriber where
  websock : Bool
  subsMap : SubsMap
  topicOffsetMap : Numbers
  enableNotify : Bool
  subscribeFlg : Nat
  clientId : Option Bytes
  /-- `AREA_SUBSCRIBEMAP`; of an entry, whether `iswildcard` is 1. -/
  area : Option (Area Bool)

inductive SubscribeError
  /-- `Invalid remaining length: `. -/
  | remainingLength (n : Nat)
  /-- `Invalid offset min: `. -/
  | offsetMin (min : LuaNumber)
  /-- `Invalid offset range: ` with the difference of the two. -/
  | offsetRange (max min : LuaNumber)
  /-- Arithmetic on `nil`. -/
  | arithNil
  /-- `bit.band(nil, ..)`. -/
  | argNil
  /-- `obj_tmp.iswildcard` where `obj_tmp` is no table. -/
  | indexObj
deriving DecidableEq, Repr

/-- `"G/E/N/"`. -/
def groupNotify : Bytes := [0x47, 0x2f, 0x45, 0x2f, 0x4e, 0x2f]

def offsetKey (topic : Bytes) : Bytes := 0x2f :: topic

def Subscriber.getConsumerOffset (self : Subscriber) (topic : Bytes) : Option LuaNumber :=
  self.topicOffsetMap (offsetKey topic)

def Subscriber.storeConsumerOffset (self : Subscriber) (topic : Bytes) (offset : LuaNumber) : Subscriber :=
  { self with topicOffsetMap := Function.update self.topicOffsetMap (offsetKey topic) (some offset) }

/-- `obj_tmp.iswildcard=1`. -/
def Subscriber.setWildcard (self : Subscriber) : Option Subscriber :=
  (setField self.area self.clientId .iswildcard 1 fun _ => true).map fun area => { self with area }

/-- `obj_tmp` is a table. -/
def Subscriber.hasTable (self : Subscriber) : Bool := getsTable self.area self.clientId

def noNumbers : Numbers := fun _ => none

def splitTopic (tonumber : Bytes → Option LuaNumber) (text : Bytes) : Bytes × Numbers :=
  let indexOf := luaUtilityIndexOf text ampersand
  if indexOf > -1 then
    (text.take indexOf.toNat, setMatches tonumber noNumbers (argMatches (text.drop indexOf.toNat)))
  else (text, noNumbers)

def chooseMin (self : Subscriber) (topic : Bytes) (numbers : Numbers) :
    Except SubscribeError (Subscriber × LuaNumber) :=
  match numbers nameMin with
  | none => .ok (self, (self.getConsumerOffset topic).getD (.int (-1)))
  | some min =>
    if min.lt (-100) then .error (.offsetMin min)
    else if (numbers nameMax).isNone then .ok (self.storeConsumerOffset topic min, min)
    else .ok (self, min)

/-- The locals of the loop. -/
structure SubscribePass where
  self : Subscriber
  localSubsMap : SubsMap
  subackMsg : Bytes

/-- `Subscribe.qos` and `Subscribe.topicFilter` replace what arguments of these names left. -/
def subscribeTableOf (numbers : Numbers) (min : LuaNumber) (qosByte : Nat) (topic : Bytes) : SubscribeTable where
  numbers := Function.update (Function.update (Function.update numbers nameMin (some min)) nameQos none)
    nameTopicFilter none
  qos := if ngxMqttTopicIsExpression topic then 0 else qosByte
  topicFilter := topic

def storePair (p : SubscribePass) (topic : Bytes) (numbers : Numbers) (min : LuaNumber) (qosByte : UInt8) :
    Except SubscribeError SubscribePass :=
  let qosByte := qosByte &&& 0x03
  let Subscribe := subscribeTableOf numbers min qosByte.toNat topic
  let stored : Except SubscribeError Subscriber :=
    match numbers nameMax with
    | none => .ok { p.self with subsMap := Function.update p.self.subsMap topic (some Subscribe) }
    | some max => if LuaNumber.subGt 1000 max min then .error (.offsetRange max min) else .ok p.self
  match stored with
  | .error e => .error e
  | .ok self =>
    let localSubsMap := Function.update p.localSubsMap topic (some Subscribe)
    let subackMsg := p.subackMsg ++ [qosByte]
    if ngxMqttTopicIsExpression topic then
      match self.setWildcard with
      | some self => .ok ⟨self, localSubsMap, subackMsg⟩
      | none => .error .indexObj
    else .ok ⟨self, localSubsMap, subackMsg⟩

def subscribePair (tonumber : Bytes → Option LuaNumber) (p : SubscribePass) (text : Bytes) (qosByte : Option UInt8) :
    Except SubscribeError SubscribePass :=
  let self := if luaUtilityIndexOf text groupNotify = 0 then { p.self with enableNotify := true } else p.self
  let (topic, numbers) := splitTopic tonumber text
  match chooseMin self topic numbers with
  | .error e => .error e
  | .ok (self, min) =>
    match qosByte with
    | none => .error .argNil
    | some qosByte => storePair { p with self } topic numbers min qosByte

/-- A round moves the index by three or more, so the length bounds the rounds. -/
def subscribeLoop (tonumber : Bytes → Option LuaNumber) (remainingLength : Nat) (message : Bytes) :
    Nat → Nat → SubscribePass → Except SubscribeError SubscribePass
  | 0, _, p => .ok p
  | fuel + 1, index, p =>
    if index < remainingLength then
      match message.drop (index - 1) with
      | b0 :: b1 :: rest =>
        let topicLength := b0.toNat * 256 + b1.toNat
        match subscribePair tonumber p (rest.take topicLength) rest[topicLength]? with
        | .error e => .error e
        | .ok p => subscribeLoop tonumber remainingLength message fuel (index + topicLength + 3) p
      | _ => .error .arithNil
    else .ok p

/-- The payload of the `SUBACK`, if one is sent. -/
def parseMessageSubscribe (tonumber : Bytes → Option LuaNumber) (process : Subscriber → SubsMap → Subscriber)
    (self : Subscriber) (remainingLength : Nat) (message : Bytes) :
    Except SubscribeError (Subscriber × Option Bytes) :=
  if ¬ self.websock then .ok (self, none)
  else if remainingLength < 3 then .error (.remainingLength remainingLength)
  else
    match message with
    | b0 :: b1 :: _ => do
      let p ← subscribeLoop tonumber remainingLength message remainingLength 3 ⟨self, fun _ => none, [b0, b1]⟩
      let self := process { p.self with subscribeFlg := 1 } p.localSubsMap
      return ({ self with subscribeFlg := 2 }, some p.subackMsg)
    | _ => .error .arithNil

/-! ## Well-formed messages -/

/-- A topic filter with its arguments, and the requested QoS. -/
structure TopicPair where
  text : Bytes
  qos : UInt8
  text_pos : 1 ≤ text.length
  text_le : text.length ≤ 65535
  text_plain : 0 ∉ text

namespace TopicPair

variable (tonumber : Bytes → Option LuaNumber) (q : TopicPair)

def bytes : Bytes := utf8Bytes q.text ++ [q.qos]

/-- The text before the first `&`. -/
def topic : Bytes := q.text.takeWhile (· != 0x26)

def numbers : Numbers := setMatches tonumber noNumbers (argMatches (q.text.dropWhile (· != 0x26)))

/-- No argument `max`, and a `min` that is not below -100. -/
def Fits : Prop := q.numbers tonumber nameMax = none ∧ ∀ min ∈ q.numbers tonumber nameMin, min.lt (-100) = false

/-- The offset stored for the client when the pair has none of its own. -/
def min (offsets : Numbers) : LuaNumber :=
  ((q.numbers tonumber nameMin).or (offsets (offsetKey q.topic))).getD (.int (-1))

/-- The consumer offsets behind the pair. -/
def offsets (offsets : Numbers) : Numbers :=
  match q.numbers tonumber nameMin with
  | none => offsets
  | some min => Function.update offsets (offsetKey q.topic) (some min)

/-- The subscription that the pair asks for, given the offsets before it. -/
def subscription (offsets : Numbers) : SubscribeTable :=
  subscribeTableOf (q.numbers tonumber) (q.min tonumber offsets) (q.qos &&& 0x03).toNat q.topic

def wildcard : Bool := ngxMqttTopicIsExpression q.topic

end TopicPair

def subscribeBytes (messageId : Nat) (pairs : List TopicPair) : Bytes :=
  utilityMqttWriteUint16 messageId ++ pairs.flatMap TopicPair.bytes

def subackBytes (messageId : Nat) (pairs : List TopicPair) : Bytes :=
  utilityMqttWriteUint16 messageId ++ pairs.map fun q => q.qos &&& 0x03

/-- Arguments as they are written: none is `max`, and no `min` is below -100. -/
theorem fits_of_arguments {tonumber : Bytes → Option LuaNumber} {q : TopicPair} {topic : Bytes} {as : List Argument}
    (htext : q.text = topic ++ as.flatMap Argument.text) (htopic : 0x26 ∉ topic)
    (hmax : ∀ a ∈ as, a.name ≠ nameMax)
    (hmin : ∀ a ∈ as, a.name = nameMin → ∀ min ∈ tonumber a.value, min.lt (-100) = false) :
    q.topic = topic ∧ q.Fits tonumber := by
  have hall : ∀ c ∈ topic, (c != 0x26) = true := fun c hc => by
    have : c ≠ 0x26 := fun h => htopic (h ▸ hc)
    simpa using this
  have hargs : (as.flatMap Argument.text).takeWhile (· != 0x26) = [] ∧
      (as.flatMap Argument.text).dropWhile (· != 0x26) = as.flatMap Argument.text := by
    cases as with
    | nil => exact ⟨rfl, rfl⟩
    | cons a as => simp [Argument.text]
  have htopic' : q.topic = topic := by
    rw [TopicPair.topic, htext, List.takeWhile_append_of_pos hall, hargs.1, List.append_nil]
  have hnumbers : q.numbers tonumber =
      setMatches tonumber noNumbers (as.map fun a => (a.name, a.value)) := by
    rw [TopicPair.numbers, htext, List.dropWhile_append_of_pos hall, hargs.2, argMatches_texts]
  refine ⟨htopic', ?_, ?_⟩
  · rw [hnumbers]
    refine setMatches_of_notMem tonumber (fun m hm => ?_) _
    obtain ⟨a, ha, rfl⟩ := List.mem_map.1 hm
    exact hmax a ha
  · intro min h
    rw [hnumbers] at h
    rcases setMatches_eq_some h with hnone | ⟨m, hm, hname, hv⟩
    · simp [noNumbers] at hnone
    · obtain ⟨a, ha, rfl⟩ := List.mem_map.1 hm
      exact hmin a ha hname min hv

/-! ## One pair -/

theorem take_drop_takeWhile (f : UInt8 → Bool) (bs : Bytes) :
    bs.take (bs.takeWhile f).length = bs.takeWhile f ∧ bs.drop (bs.takeWhile f).length = bs.dropWhile f := by
  constructor
  · exact (List.prefix_iff_eq_take.1 (List.takeWhile_prefix f)).symm
  · nth_rewrite 2 [← List.takeWhile_append_dropWhile (p := f) (l := bs)]
    exact List.drop_left

theorem splitTopic_text (tonumber : Bytes → Option LuaNumber) (q : TopicPair) :
    splitTopic tonumber q.text = (q.topic, q.numbers tonumber) := by
  unfold splitTopic TopicPair.topic TopicPair.numbers
  rw [indexOf_ampersand q.text_plain]
  by_cases h : 0x26 ∈ q.text
  · obtain ⟨htake, hdrop⟩ := take_drop_takeWhile (· != 0x26) q.text
    simp only [h, if_true, Int.toNat_natCast, htake, hdrop]
    exact if_pos (by omega)
  · have hall : ∀ c ∈ q.text, (c != 0x26) = true := fun c hc => by
      have : c ≠ 0x26 := fun h' => h (h' ▸ hc)
      simpa using this
    have htake := List.takeWhile_eq_self_iff.2 hall
    have hdrop := List.dropWhile_eq_nil_iff.2 hall
    simp [h, htake, hdrop, argMatches, gmatch, setMatches]

theorem chooseMin_text {tonumber : Bytes → Option LuaNumber} {q : TopicPair} (hfit : q.Fits tonumber)
    (self : Subscriber) :
    chooseMin self q.topic (q.numbers tonumber) =
      .ok ({ self with topicOffsetMap := q.offsets tonumber self.topicOffsetMap },
        q.min tonumber self.topicOffsetMap) := by
  obtain ⟨hmax, hmin⟩ := hfit
  unfold chooseMin TopicPair.offsets TopicPair.min
  cases hm : q.numbers tonumber nameMin with
  | none => rfl
  | some min =>
    have hlt : min.lt (-100) = false := hmin min hm
    simp [hlt, hmax, Subscriber.storeConsumerOffset]

/-- What a round adds. -/
def pairStep (tonumber : Bytes → Option LuaNumber) (p : SubscribePass) (q : TopicPair) : SubscribePass where
  self := { p.self with
    subsMap := Function.update p.self.subsMap q.topic (some (q.subscription tonumber p.self.topicOffsetMap))
    topicOffsetMap := q.offsets tonumber p.self.topicOffsetMap
    enableNotify := p.self.enableNotify || decide (luaUtilityIndexOf q.text groupNotify = 0)
    area :=
      if q.wildcard then (setField p.self.area p.self.clientId .iswildcard 1 fun _ => true).getD p.self.area
      else p.self.area }
  localSubsMap := Function.update p.localSubsMap q.topic (some (q.subscription tonumber p.self.topicOffsetMap))
  subackMsg := p.subackMsg ++ [q.qos &&& 0x03]

theorem hasTable_pairStep (tonumber : Bytes → Option LuaNumber) (q : TopicPair) {p : SubscribePass}
    (h : p.self.hasTable = true) : (pairStep tonumber p q).self.hasTable = true := by
  obtain ⟨area, hset, htab⟩ := setField_of_table h .iswildcard 1 fun _ => true
  simp only [Subscriber.hasTable, pairStep, hset, Option.getD_some]
  split
  · exact htab
  · exact h

theorem subscribePair_text {tonumber : Bytes → Option LuaNumber} {q : TopicPair} (hfit : q.Fits tonumber)
    (p : SubscribePass) (hreg : q.wildcard = true → p.self.hasTable = true) :
    subscribePair tonumber p q.text (some q.qos) = .ok (pairStep tonumber p q) := by
  have hself : (if luaUtilityIndexOf q.text groupNotify = 0 then { p.self with enableNotify := true } else p.self) =
      { p.self with enableNotify := p.self.enableNotify || decide (luaUtilityIndexOf q.text groupNotify = 0) } := by
    by_cases h : luaUtilityIndexOf q.text groupNotify = 0
    · simp [h]
    · simp [h]
  unfold subscribePair
  simp only [hself, splitTopic_text, chooseMin_text hfit]
  unfold storePair pairStep
  simp only [hfit.1, TopicPair.subscription]
  cases hw : ngxMqttTopicIsExpression q.topic with
  | true =>
    obtain ⟨area, hset, -⟩ := setField_of_table (hreg hw) .iswildcard 1 fun _ => true
    simp [Subscriber.setWildcard, hset, TopicPair.wildcard, hw]
  | false => simp [TopicPair.wildcard, hw]

/-! ## All pairs -/

/-- Every topic that is listed can be stored for the client. -/
def Fitting (tonumber : Bytes → Option LuaNumber) (hasTable : Bool) (pairs : List TopicPair) : Prop :=
  ∀ q ∈ pairs, q.Fits tonumber ∧ (q.wildcard = true → hasTable = true)

theorem length_pair (q : TopicPair) : q.bytes.length = q.text.length + 3 := by
  simp [TopicPair.bytes, utf8Bytes, utilityMqttWriteUint16]

/-- The loop on the bytes of a pair. -/
theorem subscribeLoop_pair {tonumber : Bytes → Option LuaNumber} {q : TopicPair} (hfit : q.Fits tonumber)
    (p : SubscribePass) (hreg : q.wildcard = true → p.self.hasTable = true) (pre rest : Bytes) (n fuel : Nat)
    (hn : pre.length + q.bytes.length ≤ n) :
    subscribeLoop tonumber n (pre ++ (q.bytes ++ rest)) (fuel + 1) (pre.length + 1) p =
      subscribeLoop tonumber n (pre ++ (q.bytes ++ rest)) fuel ((pre ++ q.bytes).length + 1)
        (pairStep tonumber p q) := by
  have hlen := length_pair q
  have hbytes : q.bytes ++ rest = UInt8.ofNat (q.text.length / 256) :: UInt8.ofNat (q.text.length % 256) ::
      (q.text ++ q.qos :: rest) := by
    have hle := q.text_le
    have hutf8 := encodeUtf8_ok hle
    rw [encodeUtf8, if_pos (by omega)] at hutf8
    unfold TopicPair.bytes utf8Bytes
    rw [← Except.ok.inj hutf8]
    simp
  have htopic : (UInt8.ofNat (q.text.length / 256)).toNat * 256 + (UInt8.ofNat (q.text.length % 256)).toNat =
      q.text.length := by
    have := q.text_le
    simp
    omega
  rw [subscribeLoop.eq_def]
  simp only
  rw [if_pos (by omega), Nat.add_sub_cancel, List.drop_left, hbytes]
  simp only [htopic, List.take_left, List.getElem?_append_right (le_refl _), Nat.sub_self, List.getElem?_cons_zero,
    subscribePair_text hfit p hreg]
  rw [List.length_append, hlen]
  congr 1
  omega

theorem subscribeLoop_pairs {tonumber : Bytes → Option LuaNumber} (pairs : List TopicPair) (pre : Bytes) (fuel : Nat)
    (p : SubscribePass) (hfit : Fitting tonumber p.self.hasTable pairs) (hfuel : pairs.length ≤ fuel) :
    subscribeLoop tonumber (pre ++ pairs.flatMap TopicPair.bytes).length (pre ++ pairs.flatMap TopicPair.bytes) fuel
      (pre.length + 1) p = .ok (pairs.foldl (pairStep tonumber) p) := by
  induction pairs generalizing pre fuel p with
  | nil =>
    cases fuel with
    | zero => rfl
    | succ fuel =>
      unfold subscribeLoop
      rw [if_neg (by simp)]
      rfl
  | cons q pairs ih =>
    obtain ⟨hq, hreg⟩ := hfit q List.mem_cons_self
    cases fuel with
    | zero => simp at hfuel
    | succ fuel =>
      simp only [List.flatMap_cons]
      rw [subscribeLoop_pair hq p hreg pre _ _ fuel (by simp)]
      have hfit' : Fitting tonumber (pairStep tonumber p q).self.hasTable pairs := by
        intro q' hq'
        obtain ⟨hq'', hreg'⟩ := hfit q' (List.mem_cons_of_mem _ hq')
        exact ⟨hq'', fun hw => hasTable_pairStep tonumber q (hreg' hw)⟩
      have hrest := ih (pre ++ q.bytes) fuel (pairStep tonumber p q) hfit' (by simpa using hfuel)
      rw [List.append_assoc] at hrest
      exact hrest

/-! ## What the maps hold afterwards -/

/-- The consumer offsets behind some pairs. -/
def offsetsAfter (tonumber : Bytes → Option LuaNumber) (pairs : List TopicPair) (offsets : Numbers) : Numbers :=
  pairs.foldl (fun offsets q => q.offsets tonumber offsets) offsets

/-- `new` has the last pair's subscription for each topic listed, and `old` elsewhere. -/
structure Stored (tonumber : Bytes → Option LuaNumber) (offsets : Numbers) (pairs : List TopicPair)
    (old new : SubsMap) : Prop where
  other : ∀ t, (∀ q ∈ pairs, q.topic ≠ t) → new t = old t
  last : ∀ pre q post, pairs = pre ++ q :: post → (∀ q' ∈ post, q'.topic ≠ q.topic) →
    new q.topic = some (q.subscription tonumber (offsetsAfter tonumber pre offsets))

/-- Both maps are written alike in every round. -/
theorem stored_foldl {tonumber : Bytes → Option LuaNumber} (map : SubscribePass → SubsMap)
    (hmap : ∀ p q, map (pairStep tonumber p q) =
      Function.update (map p) q.topic (some (q.subscription tonumber p.self.topicOffsetMap)))
    (pairs : List TopicPair) (p : SubscribePass) :
    Stored tonumber p.self.topicOffsetMap pairs (map p) (map (pairs.foldl (pairStep tonumber) p)) := by
  induction pairs generalizing p with
  | nil =>
    refine ⟨fun t _ => rfl, ?_⟩
    intro pre q post h
    simp at h
  | cons q pairs ih =>
    have hih := ih (pairStep tonumber p q)
    refine ⟨?_, ?_⟩
    · intro t ht
      have hq : t ≠ q.topic := (ht q List.mem_cons_self).symm
      calc map ((q :: pairs).foldl (pairStep tonumber) p) t
          = map (pairStep tonumber p q) t := hih.other t fun q' hq' => ht q' (List.mem_cons_of_mem _ hq')
        _ = map p t := by rw [hmap, Function.update_of_ne hq]
    · intro pre q' post h hpost
      cases pre with
      | nil =>
        obtain ⟨rfl, rfl⟩ : q = q' ∧ pairs = post := by simpa using h
        calc map ((q :: pairs).foldl (pairStep tonumber) p) q.topic
            = map (pairStep tonumber p q) q.topic := hih.other _ hpost
          _ = some (q.subscription tonumber p.self.topicOffsetMap) := by rw [hmap, Function.update_self]
      | cons q₀ pre =>
        obtain ⟨rfl, hpairs⟩ : q = q₀ ∧ pairs = pre ++ q' :: post := by simpa using h
        exact hih.last pre q' post hpairs hpost

theorem subackMsg_foldl (tonumber : Bytes → Option LuaNumber) (pairs : List TopicPair) (p : SubscribePass) :
    (pairs.foldl (pairStep tonumber) p).subackMsg = p.subackMsg ++ pairs.map fun q => q.qos &&& 0x03 := by
  induction pairs generalizing p with
  | nil => simp
  | cons q pairs ih =>
    rw [List.foldl_cons, ih]
    simp [pairStep]

theorem length_pairs (pairs : List TopicPair) : 3 * pairs.length ≤ (pairs.flatMap TopicPair.bytes).length := by
  induction pairs with
  | nil => simp
  | cons q pairs ih =>
    have hq := length_pair q
    simp only [List.flatMap_cons, List.length_append, List.length_cons]
    omega

/-- `mqtt_process_subscribe` adds no topic to `subsMap` and takes none out. -/
def KeepsKeys (process : Subscriber → SubsMap → Subscriber) : Prop :=
  ∀ self m t, ((process self m).subsMap t).isSome = (self.subsMap t).isSome

/-- The message is answered, and the maps that `mqtt_process_subscribe` is called with hold what
was asked for; `subsMap` keeps its topics then, and its subscriptions where `process` does. -/
def PairsHandled (tonumber : Bytes → Option LuaNumber) (process : Subscriber → SubsMap → Subscriber) (self : Subscriber)
    (messageId : Nat) (pairs : List TopicPair) : Prop :=
  let message := subscribeBytes messageId pairs
  ∃ handed localSubsMap final,
    parseMessageSubscribe tonumber process self message.length message =
      .ok (final, some (subackBytes messageId pairs)) ∧
    final.subsMap = (process handed localSubsMap).subsMap ∧
    Stored tonumber self.topicOffsetMap pairs self.subsMap handed.subsMap ∧
    Stored tonumber self.topicOffsetMap pairs (fun _ => none) localSubsMap ∧
    (∀ t, (final.subsMap t).isSome = (handed.subsMap t).isSome) ∧
    ((∀ self m, (process self m).subsMap = self.subsMap) → final.subsMap = handed.subsMap)

/-- **Each pair is handled once and in order**, when `obj_tmp` is a table or no listed topic has
a wildcard. -/
theorem subscribe_handled (tonumber : Bytes → Option LuaNumber) (process : Subscriber → SubsMap → Subscriber)
    (hkeys : KeepsKeys process) (self : Subscriber) (hws : self.websock = true) (messageId : Nat)
    (pairs : List TopicPair) (hne : pairs ≠ []) (hfit : ∀ q ∈ pairs, q.Fits tonumber)
    (hreg : self.hasTable = true ∨ ∀ q ∈ pairs, q.wildcard = false) :
    PairsHandled tonumber process self messageId pairs := by
  have hfitting : Fitting tonumber self.hasTable pairs := by
    intro q hq
    refine ⟨hfit q hq, fun hw => ?_⟩
    rcases hreg with hr | hnone
    · exact hr
    · rw [hnone q hq] at hw
      exact absurd hw (by decide)
  set start : SubscribePass := ⟨self, fun _ => none, utilityMqttWriteUint16 messageId⟩ with hstart
  set p := pairs.foldl (pairStep tonumber) start with hp
  have hbytes : 2 + 3 * pairs.length ≤ (subscribeBytes messageId pairs).length := by
    have := length_pairs pairs
    simp only [subscribeBytes, List.length_append, utilityMqttWriteUint16, List.length_cons, List.length_nil]
    omega
  have hpos : 1 ≤ pairs.length := List.length_pos_iff.2 hne
  have hloop : subscribeLoop tonumber (subscribeBytes messageId pairs).length (subscribeBytes messageId pairs)
      (subscribeBytes messageId pairs).length 3 start = .ok p :=
    subscribeLoop_pairs pairs (utilityMqttWriteUint16 messageId) _ start hfitting (by omega)
  have hsuback : p.subackMsg = subackBytes messageId pairs := subackMsg_foldl tonumber pairs start
  let final := { process { p.self with subscribeFlg := 1 } p.localSubsMap with subscribeFlg := 2 }
  have hparse : parseMessageSubscribe tonumber process self (subscribeBytes messageId pairs).length
      (subscribeBytes messageId pairs) = .ok (final, some (subackBytes messageId pairs)) := by
    unfold parseMessageSubscribe
    rw [if_neg (by simp [hws]), if_neg (by omega), ← hsuback]
    change (subscribeLoop tonumber _ (subscribeBytes messageId pairs) _ 3 start >>= _) = _
    rw [hloop]
    rfl
  exact ⟨{ p.self with subscribeFlg := 1 }, p.localSubsMap, final, hparse, rfl,
    stored_foldl (fun p => p.self.subsMap) (fun _ _ => rfl) pairs start,
    stored_foldl SubscribePass.localSubsMap (fun _ _ => rfl) pairs start, hkeys _ _, fun h => h _ _⟩

/-- A session before its `CONNECT`, with nothing subscribed. -/
def newSubscriber (area : Option (Area Bool)) : Subscriber := ⟨true, fun _ => none, noNumbers, false, 0, none, area⟩

/-- `a&min=5`. -/
def pairWithMin : TopicPair where
  text := [0x61, 0x26, 0x6d, 0x69, 0x6e, 0x3d, 0x35]
  qos := 1
  text_pos := by decide
  text_le := by decide
  text_plain := by decide

/-- `#`. -/
def pairAll : TopicPair where
  text := [0x23]
  qos := 2
  text_pos := by decide
  text_le := by decide
  text_plain := by decide

theorem pairAll_fits : pairAll.Fits decimalNumber :=
  have htext : pairAll.text = [0x23] ++ [].flatMap Argument.text := rfl
  (fits_of_arguments htext (by decide) (by simp) (by simp)).2

theorem subscribe_handled_two :
    PairsHandled decimalNumber (fun self _ => self) (newSubscriber (some [])) 7 [pairWithMin, pairAll] := by
  refine subscribe_handled decimalNumber (fun self _ => self) (fun _ _ _ => rfl) (newSubscriber (some [])) rfl 7 _
    (by simp) ?_ (Or.inl rfl)
  intro q hq
  rcases List.mem_cons.1 hq with rfl | hq
  · have hmin : pairWithMin.numbers decimalNumber nameMin = some (.int 5) := by decide +kernel
    refine ⟨by decide +kernel, ?_⟩
    intro min h
    rw [hmin] at h
    obtain rfl := Option.some.inj h
    rfl
  · obtain rfl := List.mem_singleton.1 hq
    exact pairAll_fits

/-- Before the first `CONNECT` of the worker, a wildcard topic raises. -/
theorem wildcard_unregistered : ¬ ∀ (process : Subscriber → SubsMap → Subscriber) (self : Subscriber) (messageId : Nat)
    (pairs : List TopicPair), KeepsKeys process → self.websock = true → pairs ≠ [] →
    (∀ q ∈ pairs, q.Fits decimalNumber) → PairsHandled decimalNumber process self messageId pairs := by
  intro h
  have hfit : ∀ q ∈ [pairAll], q.Fits decimalNumber := fun q hq => List.mem_singleton.1 hq ▸ pairAll_fits
  obtain ⟨_, _, _, hparse, -⟩ := h (fun self _ => self) (newSubscriber none) 7 [pairAll] (fun _ _ _ => rfl) rfl
    (by simp) hfit
  have herr : (parseMessageSubscribe decimalNumber (fun self _ => self) (newSubscriber none)
      (subscribeBytes 7 [pairAll]).length (subscribeBytes 7 [pairAll])).isOk = false := by decide +kernel
  rw [hparse] at herr
  simp [Except.isOk, Except.toBool] at herr

end NgxPlus.Mqtt
