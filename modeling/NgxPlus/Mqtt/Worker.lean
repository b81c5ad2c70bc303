import NgxPlus.Mqtt.Area
import NgxPlus.Mqtt.Newest
import NgxPlus.Mqtt.Session
import NgxPlus.Mqtt.Topic

/-!
# Notifications to the workers

| here | there |
| --- | --- |
| `notifyProcess`        | `_M.process` of `mqtt_notify_module.lua` from the payload on (`:42-82`); what it stores is in `OffsetProcess` |
| `drainLoop`            | the loop over `ngx_lua_ffi_shdict_rpop` (`mqtt_notify_2worker_module.lua:30-56`) |
| `storeSemaphoreCache`  | `storeSemaphoreCache` (`:16-23`) |
| `postAll`              | the loop over the local sessions (`:93-122`) |
| `handleTopic`, `handleTopics` | the body and the loop over `cacheL1` (`:63-125`) |
| `processSubscribeHandler` | `process_subscribe_handler` (`:25-126`) |

A queue is the list of its entries, the next one to be popped first. The handler does not
yield, so a run of it is one step; between runs sessions come, go and subscribe. `pairs` visits
`cacheL1` in any order (`order`). A field that a session without a client id sets becomes a number in
`AREA_SUBSCRIBEMAP` (`Area.lean`), and the loop over the sessions raises when it comes to it. `push` is
what the call at `:82` does: the symbol it names is not the one the notifier calls, and is defined
nowhere in the repository.

`notifications_handled`: no notification is dropped in the runs that meet `Clear`.
`relogin_drops_the_rest` is a run that does not: the topic whose session is on another worker
ends the loop.
-/

namespace NgxPlus.Mqtt

open ByteMem Decode Trace
open NgxPlus.Diversion (LuaError Behind luaMem encodeUtf8 decodeUtf8 encodeUtf8_eq_ok decodeUtf8_write)

/-- `MQTT.Utility.readUint64` and `MQTT.Utility.uint64ToBytes` (`mqtt.lua:1491-1499`), whose C
functions are not in the repository; the second returns `ffi.string(_new_u_char64,8)`. -/
structure OffsetCodec where
  readUint64 : Bytes → Nat
  uint64ToBytes : Nat → Bytes
  length_uint64ToBytes : ∀ o, (uint64ToBytes o).length = 8

/-! ## The state -/

/-- A local session: the filters in `subsMap`, and `iswildcard == 1`. A recovered filter and one of a
`SUBSCRIBE` set it (`mqtt.lua:451-453`, `:1183-1184`); those that `auth` stores
(`mqtt_server_module.lua:551-578`) do not. -/
structure SubscribeObj where
  subsMap : Option (List Bytes)
  iswildcard : Bool

abbrev SubscribeMap := Area SubscribeObj

/-- By client and topic, the offset stored for the subscriber. -/
abbrev SemaphoreCache := AssocList Bytes (AssocList Bytes Nat)

structure Workers where
  queue : Nat → List Bytes
  /-- `MQTT_CLIENT_TMP_DICT`. -/
  record : AssocList Bytes Bytes
  /-- `MQTT.GVAR.AREA_SUBSCRIBEMAP` of a worker. -/
  allSubscribeMap : Nat → Option SubscribeMap
  semaphoreCache : Nat → SemaphoreCache

def Workers.start : Workers := ⟨fun _ => [], [], fun _ => none, fun _ => []⟩

def pTopic : Bytes := [0x50, 0x2f]

/-- `lua_utility_indexOf(topic,"P/") == 0`. -/
def isPrivate (topic : Bytes) : Bool := luaUtilityIndexOf topic pTopic == 0

/-! ## The notifier -/

def lpush (queue : Nat → List Bytes) (w : Nat) (value : Bytes) : Nat → List Bytes :=
  Function.update queue w (queue w ++ [value])

/-- `for workId=1,count,1`, up to the first push that fails. -/
def lpushAll (fails : Nat → Bool) (value : Bytes) : List Nat → (Nat → List Bytes) → (Nat → List Bytes)
  | [], queue => queue
  | w :: ws, queue => if fails w then queue else lpushAll fails value ws (lpush queue w value)

/-- With `count` workers; `fails` are those whose queue has no room. -/
def notifyProcess (L : OffsetCodec) (count : Nat) (fails : Nat → Bool) (s : Workers) (payload : Bytes) :
    Except LuaError Workers := do
  let offset := L.readUint64 payload
  let (topic, _) ← decodeUtf8 (payload.drop 8)
  let topicBytes ← encodeUtf8 topic
  let notifyData := L.uint64ToBytes offset ++ topicBytes
  if isPrivate topic then
    match AssocList.get s.record topic with
    | none => return s
    | some [] => .error .arithNil
    | some (workId :: _) =>
      if fails workId.toNat then return s else return { s with queue := lpush s.queue workId.toNat notifyData }
  else return { s with queue := lpushAll fails notifyData ((List.range (count - 1)).map (· + 1)) s.queue }

/-! ## Draining the queue -/

/-- `MQTT_TOPIC_SUB_PAGESIZE+1000`. -/
def drainCount : Nat := 1010

def decodeEntry (L : OffsetCodec) (buff : Bytes) : Except LuaError Popped := do
  let offset := L.readUint64 buff
  let (topic, _) ← decodeUtf8 (buff.drop 8)
  return ⟨offset, topic, buff, 1 + 8 + topic.length + 2⟩

/-- What is left of the queue, and the table, unless an entry cannot be decoded. -/
def drainLoop (L : OffsetCodec) : Nat → List Bytes → CacheL1 → List Bytes × Option CacheL1
  | 0, queue, cacheL1 => (queue, some cacheL1)
  | _, [], cacheL1 => ([], some cacheL1)
  | n + 1, buff :: queue, cacheL1 =>
    if buff.length = 0 then (queue, some cacheL1)
    else
      match decodeEntry L buff with
      | .error _ => (queue, none)
      | .ok e => drainLoop L n queue (cacheL1Step cacheL1 e)

/-! ## One topic -/

inductive PushResult
  | ok
  | failed
  /-- The call raises. -/
  | raised
deriving DecidableEq, Repr

/-- What a run has done so far. -/
structure Handling where
  semaphoreCache : SemaphoreCache
  /-- The clients whose semaphore was posted. -/
  posted : List Bytes
  pushed : List (Nat × Bytes)
  offline : List Bytes

def storeSemaphoreCache (cache : SemaphoreCache) (cid topic : Bytes) (offset : Nat) : SemaphoreCache :=
  let subsMap := (AssocList.get cache cid).getD []
  AssocList.set cache cid (AssocList.set subsMap topic offset)

/-- The worker in a session record; the session id and the server id behind it are decoded too. -/
def recordWorker : Bytes → Except LuaError UInt8
  | [] => .error .arithNil
  | wId :: bs => do
    let (_, bs) ← decodeUtf8 bs
    let _ ← decodeUtf8 bs
    return wId

section

variable (after : Behind)

def wildcardMatch (topic f : Bytes) : Bool := ngxMqttTopicWildcardMatch (luaMem after topic) topic.length f

/-- The session gets the topic. -/
def notifies (topic : Bytes) (obj : SubscribeObj) : Bool :=
  match obj.subsMap with
  | none => false
  | some subsMap => subsMap.contains topic || (obj.iswildcard && subsMap.any (wildcardMatch after topic))

def Handling.post (s : Handling) (cId topic : Bytes) (offset : Nat) : Handling :=
  { s with semaphoreCache := storeSemaphoreCache s.semaphoreCache cId topic offset, posted := s.posted ++ [cId] }

/-- `pairs(allSubscribeMap)`; `false` where `obj` is a number and `obj.subsMap` raises. -/
def postAll (topic : Bytes) (offset : Nat) : SubscribeMap → Handling → Handling × Bool
  | [], s => (s, true)
  | (_, .number _) :: _, s => (s, false)
  | (cId, .object obj) :: m, s => postAll topic offset m (if notifies after topic obj then s.post cId topic offset else s)

/-- The body of the loop; `false` when the run ends with it. -/
def handleTopic (push : PushResult) (w : Nat) (record : AssocList Bytes Bytes) (allSubscribeMap : SubscribeMap)
    (topic : Bytes) (obj : CacheObj) (s : Handling) : Handling × Bool :=
  if isPrivate topic then
    match AssocList.get record topic with
    | none => ({ s with offline := s.offline ++ [topic] }, true)
    | some sessionBtyes =>
      match recordWorker sessionBtyes with
      | .error _ => (s, false)
      | .ok wId =>
        if w ≠ wId.toNat then
          match push with
          | .ok => ({ s with pushed := s.pushed ++ [(wId.toNat, obj.b)] }, false)
          | _ => (s, false)
        else
          match objectOf allSubscribeMap topic with
          | none => ({ s with semaphoreCache := storeSemaphoreCache s.semaphoreCache topic topic obj.o }, false)
          | some _ => (s.post topic topic obj.o, true)
  else postAll after topic obj.o allSubscribeMap s

def handleTopics (push : PushResult) (w : Nat) (record : AssocList Bytes Bytes) (allSubscribeMap : SubscribeMap)
    (cacheL1 : CacheL1) : List Bytes → Handling → Handling
  | [], s => s
  | topic :: order, s =>
    match AssocList.get cacheL1 topic with
    | none => handleTopics push w record allSubscribeMap cacheL1 order s
    | some obj =>
      match handleTopic after push w record allSubscribeMap topic obj s with
      | (s, true) => handleTopics push w record allSubscribeMap cacheL1 order s
      | (s, false) => s

/-! ## A run -/

/-- What is left of the queue, and what the run did. -/
def processSubscribeHandler (L : OffsetCodec) (push : PushResult) (order : List Bytes) (w : Nat) (s : Workers) :
    List Bytes × Handling :=
  let (queue, cacheL1) := drainLoop L drainCount (s.queue w) []
  let start : Handling := ⟨s.semaphoreCache w, [], [], []⟩
  match cacheL1, s.allSubscribeMap w with
  | some cacheL1, some allSubscribeMap =>
    (queue, handleTopics after push w s.record allSubscribeMap cacheL1 order start)
  | _, _ => (queue, start)

inductive WorkerStep
  /-- The notifier gets a payload. -/
  | notify (fails : Nat → Bool) (payload : Bytes)
  | connect (clientId : Bytes) (session : Session)
  | disconnect (clientId : Bytes)
  /-- A session of worker `w` is there, or subscribes, or is gone. -/
  | subscribe (w : Nat) (clientId : Bytes) (obj : Option SubscribeObj)
  /-- A session of worker `w` that has no client id sets a field (`mqtt.lua:1184`,
  `mqtt_server_module.lua:453-460`). -/
  | field (w : Nat) (field : AreaField) (n : Nat)
  | handle (push : PushResult) (order : List Bytes) (w : Nat)

def workerStep (L : OffsetCodec) (count : Nat) (serverId : Bytes) (s : Workers) : WorkerStep → Workers
  | .notify fails payload =>
    match notifyProcess L count fails s payload with
    | .ok s => s
    | .error _ => s
  | .connect clientId session =>
    match sessionRecord serverId session with
    | .ok b => { s with record := AssocList.set s.record clientId b }
    | .error _ => s
  | .disconnect clientId => { s with record := AssocList.delete s.record clientId }
  | .subscribe w clientId obj =>
    { s with
      allSubscribeMap :=
        Function.update s.allSubscribeMap w (mqttSet (s.allSubscribeMap w) clientId (obj.map AreaVal.object)) }
  | .field w field n =>
    { s with
      allSubscribeMap :=
        Function.update s.allSubscribeMap w ((setField (s.allSubscribeMap w) none field n id).getD (s.allSubscribeMap w)) }
  | .handle push order w =>
    let (queue, r) := processSubscribeHandler after L push order w s
    { s with
      queue := r.pushed.foldl (fun q e => lpush q e.1 e.2) (Function.update s.queue w queue)
      semaphoreCache := Function.update s.semaphoreCache w r.semaphoreCache }

/-! ## The law -/

/-- The entries that a run takes from a queue. -/
def taken (L : OffsetCodec) (queue : List Bytes) : List Popped :=
  (queue.take drainCount).filterMap fun buff => (decodeEntry L buff).toOption

def offsetsOf (es : List Popped) (topic : Bytes) : List Nat := (es.filter fun e => e.topic = topic).map Popped.offset

/-- `o` is the newest of the offsets, as far as they have one. -/
def IsNewest (o : Nat) (offsets : List Nat) : Prop := ∀ a n, InWindow a offsets → Newest a n offsets → o = n

/-- The session has the topic, or a wildcard filter that matches it. -/
def Subscribed (topic : Bytes) (obj : SubscribeObj) : Prop :=
  ∃ fs, obj.subsMap = some fs ∧
    (topic ∈ fs ∨ ∃ f ∈ fs, ngxMqttTopicIsExpression f = true ∧ wildcardMatch after topic f = true)

def cachedFor (cache : SemaphoreCache) (cid topic : Bytes) : Option Nat :=
  (AssocList.get cache cid).bind fun subsMap => AssocList.get subsMap topic

/-- Every local session that is subscribed is posted and finds the newest offset. -/
def PostedToAll (allSubscribeMap : SubscribeMap) (es : List Popped) (r : Handling) (topic : Bytes) : Prop :=
  ∀ cId obj, (cId, AreaVal.object obj) ∈ allSubscribeMap → Subscribed after topic obj → cId ∈ r.posted ∧
    ∃ o, cachedFor r.semaphoreCache cId topic = some o ∧ IsNewest o (offsetsOf es topic)

def Handled (w : Nat) (record : AssocList Bytes Bytes) (allSubscribeMap : SubscribeMap) (es : List Popped)
    (r : Handling) (topic : Bytes) : Prop :=
  if isPrivate topic then
    match AssocList.get record topic with
    | none => topic ∈ r.offline
    | some sessionBtyes => ∃ wId, recordWorker sessionBtyes = .ok wId ∧
      if w = wId.toNat then PostedToAll after allSubscribeMap es r topic
      else ∃ e ∈ es, e.topic = topic ∧ (wId.toNat, e.buff) ∈ r.pushed ∧ IsNewest e.offset (offsetsOf es topic)
  else PostedToAll after allSubscribeMap es r topic

/-- No topic taken in the run is dropped. -/
def NoneDropped (L : OffsetCodec) (s : Workers) : WorkerStep → Prop
  | .handle push order w => ∀ e ∈ taken L (s.queue w),
    Handled after w s.record ((s.allSubscribeMap w).getD []) (taken L (s.queue w))
      (processSubscribeHandler after L push order w s).2 e.topic
  | _ => True

/-- `pairs` visits each topic taken once. -/
def VisitsAll (L : OffsetCodec) (s : Workers) : WorkerStep → Prop
  | .handle _ order w => order.Nodup ∧ ∀ t, t ∈ order ↔ ∃ e ∈ taken L (s.queue w), e.topic = t
  | _ => True

/-- A private topic whose session is on a worker with property `p`. -/
def SessionOn (p : Nat → Prop) (record : AssocList Bytes Bytes) (topic : Bytes) : Prop :=
  isPrivate topic = true ∧ ∃ b wId, AssocList.get record topic = some b ∧ recordWorker b = .ok wId ∧ p wId.toNat

/-- A private topic whose session moved, or is not yet in the table. -/
def EndsRun (w : Nat) (record : AssocList Bytes Bytes) (m : SubscribeMap) (topic : Bytes) : Prop :=
  SessionOn (· ≠ w) record topic ∨ SessionOn (· = w) record topic ∧ objectOf m topic = none

/-- Where the session has no subscription to the topic itself and a wildcard filter matches,
`iswildcard` is set. -/
def WildcardSet (topic : Bytes) (obj : SubscribeObj) : Prop :=
  ∀ fs, obj.subsMap = some fs → topic ∉ fs → ∀ f ∈ fs, ngxMqttTopicIsExpression f = true →
    wildcardMatch after topic f = true → obj.iswildcard = true

structure ClearRun (L : OffsetCodec) (push : PushResult) (order : List Bytes) (w : Nat) (s : Workers) : Prop where
  /-- No offset from before the wrap comes behind the newest one. -/
  newest : ∀ t a n, InWindow a (offsetsOf (taken L (s.queue w)) t) → Newest a n (offsetsOf (taken L (s.queue w)) t) →
    NoneLate n (offsetsOf (taken L (s.queue w)) t)
  /-- A worker without a table takes only private topics of its own. -/
  table : s.allSubscribeMap w = none → ∀ t ∈ order, isPrivate t = true → SessionOn (· = w) s.record t
  /-- A topic whose session moved, or is not yet in the table, comes last. -/
  last : ∀ m, s.allSubscribeMap w = some m → ∀ pre t post, order = pre ++ t :: post → EndsRun w s.record m t → post = []
  pushed : ∀ t ∈ order, SessionOn (· ≠ w) s.record t → push = .ok
  /-- A private topic has no other local subscriber. -/
  own : ∀ m, s.allSubscribeMap w = some m → ∀ t ∈ order, SessionOn (· = w) s.record t →
    ∀ cId obj, (cId, AreaVal.object obj) ∈ m → Subscribed after t obj → cId = t
  /-- Other topics meet no number in the table. -/
  objects : ∀ m, s.allSubscribeMap w = some m → ∀ t ∈ order, isPrivate t = false → AllObjects m
  wildcards : ∀ m, s.allSubscribeMap w = some m → ∀ t ∈ order, isPrivate t = false →
    ∀ cId obj, (cId, AreaVal.object obj) ∈ m → WildcardSet after t obj

def Clear (L : OffsetCodec) (s : Workers) : WorkerStep → Prop
  | .handle push order w => ClearRun after L push order w s
  | _ => True

end

/-! ## Draining -/

/-- What the notifier writes. -/
def Entry (L : OffsetCodec) (buff : Bytes) : Prop :=
  ∃ offset topic topicBytes, encodeUtf8 topic = .ok topicBytes ∧ buff = L.uint64ToBytes offset ++ topicBytes

theorem Entry.decode {L : OffsetCodec} {buff : Bytes} (h : Entry L buff) :
    buff.length ≠ 0 ∧ ∃ e, decodeEntry L buff = .ok e ∧ e.buff = buff := by
  obtain ⟨offset, topic, topicBytes, henc, rfl⟩ := h
  obtain ⟨hlen, rfl⟩ := encodeUtf8_eq_ok henc
  have hdrop : (L.uint64ToBytes offset ++ (utilityMqttWriteUint16 topic.length ++ topic)).drop 8 =
      utilityMqttWriteUint16 topic.length ++ topic ++ [] := by
    rw [List.drop_left' (L.length_uint64ToBytes offset), List.append_nil]
  refine ⟨by rw [List.length_append, L.length_uint64ToBytes]; omega, ?_⟩
  unfold decodeEntry
  rw [hdrop, decodeUtf8_write hlen]
  exact ⟨_, rfl, rfl⟩

theorem drainLoop_eq {L : OffsetCodec} {queue : List Bytes} (h : ∀ b ∈ queue, Entry L b) (n : Nat)
    (cacheL1 : CacheL1) :
    drainLoop L n queue cacheL1 = (queue.drop n,
      some (((queue.take n).filterMap fun buff => (decodeEntry L buff).toOption).foldl cacheL1Step cacheL1)) := by
  induction n generalizing queue cacheL1 with
  | zero => simp [drainLoop]
  | succ n ih =>
    cases queue with
    | nil => simp [drainLoop]
    | cons buff queue =>
      obtain ⟨hne, e, he, -⟩ := (h buff (by simp)).decode
      rw [drainLoop, if_neg hne, he]
      simp only
      rw [ih fun b hb => h b (by simp [hb])]
      simp [he, Except.toOption]

/-- The table holds entries that were taken. -/
theorem get_cacheL1Step {c : CacheL1} {e : Popped} {t : Bytes} {obj : CacheObj}
    (h : AssocList.get (cacheL1Step c e) t = some obj) :
    AssocList.get c t = some obj ∨ e.topic = t ∧ obj = ⟨e.offset, e.buff, e.index⟩ := by
  have hset : ∀ c' : CacheL1, AssocList.get (AssocList.set c' e.topic ⟨e.offset, e.buff, e.index⟩) t = some obj →
      AssocList.get c' t = some obj ∨ e.topic = t ∧ obj = ⟨e.offset, e.buff, e.index⟩ := by
    intro c' hc
    by_cases ht : t = e.topic
    · subst ht
      rw [AssocList.get_set_self] at hc
      exact Or.inr ⟨rfl, (Option.some.inj hc).symm⟩
    · rw [AssocList.get_set_of_ne _ _ ht] at hc
      exact Or.inl hc
  unfold cacheL1Step at h
  cases hg : AssocList.get c e.topic with
  | none =>
    simp only [hg] at h
    have hone : AssocList.get (AssocList.set c e.topic ⟨e.offset, e.buff, e.index⟩) t = some obj := by
      split at h
      · exact (hset _ h).elim id fun he => by rw [he.2, ← he.1]; exact AssocList.get_set_self _ _ _
      · split at h
        · exact (hset _ h).elim id fun he => by rw [he.2, ← he.1]; exact AssocList.get_set_self _ _ _
        · exact h
    exact hset _ hone
  | some tmpObj =>
    simp only [hg] at h
    split at h
    · exact hset _ h
    · split at h
      · exact hset _ h
      · exact Or.inl h

theorem get_cacheL1 {es : List Popped} {c : CacheL1} {t : Bytes} {obj : CacheObj}
    (h : AssocList.get (es.foldl cacheL1Step c) t = some obj) :
    AssocList.get c t = some obj ∨ ∃ e ∈ es, e.topic = t ∧ obj = ⟨e.offset, e.buff, e.index⟩ := by
  induction es generalizing c with
  | nil => exact Or.inl h
  | cons e es ih =>
    rcases ih h with h | ⟨e', he', h⟩
    · rcases get_cacheL1Step h with h | h
      · exact Or.inl h
      · exact Or.inr ⟨e, by simp, h⟩
    · exact Or.inr ⟨e', by simp [he'], h⟩

/-- What a run finds in the table for a topic it has taken. -/
structure FoundIn (es : List Popped) (topic : Bytes) (obj : CacheObj) : Prop where
  entry : ∃ e ∈ es, e.topic = topic ∧ obj.b = e.buff ∧ obj.o = e.offset
  newest : IsNewest obj.o (offsetsOf es topic)

theorem exists_foundIn {es : List Popped} {t : Bytes} (hmem : ∃ e ∈ es, e.topic = t)
    (hlate : ∀ a n, InWindow a (offsetsOf es t) → Newest a n (offsetsOf es t) → NoneLate n (offsetsOf es t)) :
    ∃ obj, AssocList.get (es.foldl cacheL1Step []) t = some obj ∧ FoundIn es t obj := by
  have hfold : cachedOffset (es.foldl cacheL1Step []) t = (offsetsOf es t).foldl (keep luaAccepts) none :=
    cachedOffset_foldl es [] t
  cases hg : AssocList.get (es.foldl cacheL1Step []) t with
  | none =>
    obtain ⟨e, he, ht⟩ := hmem
    have hin : e.offset ∈ offsetsOf es t := List.mem_map_of_mem (List.mem_filter.2 ⟨he, by simpa using ht⟩)
    cases hl : offsetsOf es t with
    | nil => rw [hl] at hin; simp at hin
    | cons o l =>
      obtain ⟨v, hv⟩ := foldl_keep_isSome luaAccepts l o
      rw [cachedOffset, hg, hl, List.foldl_cons, keep, hv] at hfold
      simp at hfold
  | some obj =>
    refine ⟨obj, rfl, ?_, fun a n hw hn => ?_⟩
    · rcases get_cacheL1 hg with h | ⟨e, he, ht, rfl⟩
      · simp [AssocList.get] at h
      · exact ⟨e, he, ht, rfl, rfl⟩
    · have hnew := (foldl_newest hw hn (Or.inr rfl) luaAccepts_eq).2 (hlate a n hw hn)
      rw [← hfold, cachedOffset, hg] at hnew
      exact Option.some.inj hnew

/-! ## Handling -/

theorem cachedFor_store_self (cache : SemaphoreCache) (cid topic : Bytes) (o : Nat) :
    cachedFor (storeSemaphoreCache cache cid topic o) cid topic = some o := by
  simp [cachedFor, storeSemaphoreCache]

theorem cachedFor_store_of_ne (cache : SemaphoreCache) (cid topic : Bytes) (o : Nat) (cid' : Bytes) {topic' : Bytes}
    (h : topic' ≠ topic) :
    cachedFor (storeSemaphoreCache cache cid topic o) cid' topic' = cachedFor cache cid' topic' := by
  unfold cachedFor storeSemaphoreCache
  by_cases hc : cid' = cid
  · subst hc
    rw [AssocList.get_set_self, Option.bind_some, AssocList.get_set_of_ne _ _ h]
    cases AssocList.get cache cid' with
    | none => rfl
    | some subsMap => rfl
  · rw [AssocList.get_set_of_ne _ _ hc]

/-- Storing an offset again changes nothing for those who have it. -/
theorem cachedFor_store_same {cache : SemaphoreCache} {cid topic : Bytes} {o : Nat} {cid' : Bytes}
    (h : cachedFor cache cid' topic = some o) :
    cachedFor (storeSemaphoreCache cache cid topic o) cid' topic = some o := by
  by_cases hc : cid' = cid
  · subst hc
    exact cachedFor_store_self _ _ _ _
  · unfold cachedFor storeSemaphoreCache at *
    rw [AssocList.get_set_of_ne _ _ hc]
    exact h

/-- Nothing done is undone, and of the cache only what belongs to the topics `ts` changes. -/
structure Extends (ts : List Bytes) (r r' : Handling) : Prop where
  posted : r.posted ⊆ r'.posted
  pushed : r.pushed ⊆ r'.pushed
  offline : r.offline ⊆ r'.offline
  cache : ∀ cid t, t ∉ ts → cachedFor r'.semaphoreCache cid t = cachedFor r.semaphoreCache cid t

theorem Extends.refl (ts : List Bytes) (r : Handling) : Extends ts r r :=
  ⟨List.Subset.refl _, List.Subset.refl _, List.Subset.refl _, fun _ _ _ => rfl⟩

theorem Extends.trans {ts us : List Bytes} {r r' r'' : Handling} (h : Extends ts r r') (h' : Extends us r' r'') :
    Extends (ts ++ us) r r'' :=
  ⟨List.Subset.trans h.posted h'.posted, List.Subset.trans h.pushed h'.pushed,
    List.Subset.trans h.offline h'.offline, fun cid t ht => by
    rw [List.mem_append, not_or] at ht
    rw [h'.cache cid t ht.2, h.cache cid t ht.1]⟩

theorem Handling.extends_post (r : Handling) (cId topic : Bytes) (o : Nat) : Extends [topic] r (r.post cId topic o) :=
  ⟨List.subset_append_left _ _, List.Subset.refl _, List.Subset.refl _,
    fun cid _ ht => cachedFor_store_of_ne _ _ _ _ cid (by simpa using ht)⟩

section

variable {after : Behind} {push : PushResult} {w : Nat} {record : AssocList Bytes Bytes} {allSubscribeMap : SubscribeMap}
  {es : List Popped} {topic : Bytes} {obj : CacheObj} {r r' : Handling}

theorem PostedToAll.mono {ts : List Bytes} (h : PostedToAll after allSubscribeMap es r topic) (hext : Extends ts r r')
    (ht : topic ∉ ts) : PostedToAll after allSubscribeMap es r' topic := by
  intro cId obj he hsub
  obtain ⟨hp, o, hc, hn⟩ := h cId obj he hsub
  exact ⟨hext.posted hp, o, by rw [hext.cache _ _ ht, hc], hn⟩

theorem Handled.mono {ts : List Bytes} (h : Handled after w record allSubscribeMap es r topic) (hext : Extends ts r r')
    (ht : topic ∉ ts) : Handled after w record allSubscribeMap es r' topic := by
  unfold Handled at h ⊢
  by_cases hpriv : isPrivate topic = true
  · rw [if_pos hpriv] at h ⊢
    cases hr : AssocList.get record topic with
    | none =>
      rw [hr] at h
      exact hext.offline h
    | some b =>
      rw [hr] at h
      obtain ⟨wId, hw, h⟩ := h
      refine ⟨wId, hw, ?_⟩
      by_cases hwid : w = wId.toNat
      · rw [if_pos hwid] at h ⊢
        exact h.mono hext ht
      · rw [if_neg hwid] at h ⊢
        obtain ⟨e, he, het, hp, hn⟩ := h
        exact ⟨e, he, het, hext.pushed hp, hn⟩
  · rw [if_neg hpriv] at h ⊢
    exact h.mono hext ht

theorem notifies_of_subscribed {o : SubscribeObj} (h : Subscribed after topic o) (hwild : WildcardSet after topic o) :
    notifies after topic o = true := by
  obtain ⟨fs, hfs, h⟩ := h
  simp only [notifies, hfs, Bool.or_eq_true, Bool.and_eq_true, List.any_eq_true]
  by_cases hmem : topic ∈ fs
  · exact Or.inl (by simpa using hmem)
  · obtain ⟨f, hf, hexp, hmatch⟩ := h.resolve_left hmem
    exact Or.inr ⟨hwild fs hfs hmem f hf hexp hmatch, f, hf, hmatch⟩

/-- The loop over the local sessions. -/
theorem postAll_extends (m : SubscribeMap) (o : Nat) (r : Handling) : Extends [topic] r (postAll after topic o m r).1 := by
  induction m generalizing r with
  | nil => exact .refl _ _
  | cons e m ih =>
    obtain ⟨cId, obj | n⟩ := e
    · rw [postAll]
      split
      · have h := (r.extends_post cId topic o).trans (ih (r.post cId topic o))
        exact ⟨h.posted, h.pushed, h.offline, fun cid t ht => h.cache cid t (by simpa using ht)⟩
      · exact ih r
    · exact .refl _ _

theorem postAll_pushed (m : SubscribeMap) (o : Nat) (r : Handling) :
    (postAll after topic o m r).1.pushed = r.pushed := by
  induction m generalizing r with
  | nil => rfl
  | cons e m ih =>
    obtain ⟨cId, obj | n⟩ := e
    · rw [postAll, ih]
      split <;> rfl
    · rfl

theorem postAll_keeps (m : SubscribeMap) {o : Nat} {r : Handling} {cid : Bytes}
    (h : cachedFor r.semaphoreCache cid topic = some o) :
    cachedFor (postAll after topic o m r).1.semaphoreCache cid topic = some o := by
  induction m generalizing r with
  | nil => exact h
  | cons e m ih =>
    obtain ⟨cId, obj | n⟩ := e
    · rw [postAll]
      split
      · exact ih (cachedFor_store_same h)
      · exact ih h
    · exact h

theorem postAll_goesOn {m : SubscribeMap} (hm : AllObjects m) (o : Nat) (r : Handling) :
    (postAll after topic o m r).2 = true := by
  induction m generalizing r with
  | nil => rfl
  | cons e m ih =>
    obtain ⟨cId, val⟩ := e
    obtain ⟨obj, rfl⟩ := hm (cId, val) List.mem_cons_self
    exact ih (fun e he => hm e (List.mem_cons_of_mem _ he)) _

theorem postAll_posts {m : SubscribeMap} (hm : AllObjects m) (o : Nat) (r : Handling) {cId : Bytes} {obj : SubscribeObj}
    (he : (cId, AreaVal.object obj) ∈ m) (hn : notifies after topic obj = true) :
    cId ∈ (postAll after topic o m r).1.posted ∧
      cachedFor (postAll after topic o m r).1.semaphoreCache cId topic = some o := by
  induction m generalizing r with
  | nil => simp at he
  | cons e m ih =>
    obtain ⟨cId', val⟩ := e
    obtain ⟨obj', rfl⟩ := hm (cId', val) List.mem_cons_self
    rw [postAll]
    rcases List.mem_cons.1 he with heq | he
    · obtain ⟨rfl, hval⟩ := Prod.mk.inj heq
      obtain rfl := AreaVal.object.inj hval
      rw [if_pos hn]
      refine ⟨(postAll_extends m o _).posted ?_, postAll_keeps m (cachedFor_store_self _ _ _ _)⟩
      simp [Handling.post]
    · exact ih (fun e he => hm e (List.mem_cons_of_mem _ he)) _ he

end

/-- What the body does with one topic. -/
inductive TopicOutcome (after : Behind) (push : PushResult) (w : Nat) (record : AssocList Bytes Bytes)
    (allSubscribeMap : SubscribeMap) (topic : Bytes) (obj : CacheObj) (r : Handling) : Handling × Bool → Prop
  | plain (hpriv : isPrivate topic = false) : TopicOutcome after push w record allSubscribeMap topic obj r
      (postAll after topic obj.o allSubscribeMap r)
  | offline (hpriv : isPrivate topic = true) (hrec : AssocList.get record topic = none) :
    TopicOutcome after push w record allSubscribeMap topic obj r ({ r with offline := r.offline ++ [topic] }, true)
  | moved (wId : UInt8) (hpriv : isPrivate topic = true) {b : Bytes} (hrec : AssocList.get record topic = some b)
      (hwId : recordWorker b = .ok wId) (hw : w ≠ wId.toNat) :
    TopicOutcome after push w record allSubscribeMap topic obj r
      (if push = .ok then { r with pushed := r.pushed ++ [(wId.toNat, obj.b)] } else r, false)
  | absent (wId : UInt8) (hpriv : isPrivate topic = true) {b : Bytes} (hrec : AssocList.get record topic = some b)
      (hwId : recordWorker b = .ok wId) (hw : w = wId.toNat) (hmap : objectOf allSubscribeMap topic = none) :
    TopicOutcome after push w record allSubscribeMap topic obj r
      ({ r with semaphoreCache := storeSemaphoreCache r.semaphoreCache topic topic obj.o }, false)
  | own (wId : UInt8) (hpriv : isPrivate topic = true) {b : Bytes} (hrec : AssocList.get record topic = some b)
      (hwId : recordWorker b = .ok wId) (hw : w = wId.toNat) :
    TopicOutcome after push w record allSubscribeMap topic obj r (r.post topic topic obj.o, true)

/-- The worker of every record can be read. -/
def RecordsRead (record : AssocList Bytes Bytes) : Prop :=
  ∀ c b, AssocList.get record c = some b → ∃ wId, recordWorker b = .ok wId

section

variable (after : Behind) (push : PushResult) (w : Nat) {record : AssocList Bytes Bytes} (allSubscribeMap : SubscribeMap)
  (topic : Bytes) (obj : CacheObj) (r : Handling)

theorem handleTopic_outcome (hrec : RecordsRead record) :
    TopicOutcome after push w record allSubscribeMap topic obj r
      (handleTopic after push w record allSubscribeMap topic obj r) := by
  unfold handleTopic
  cases hpriv : isPrivate topic with
  | false => exact .plain hpriv
  | true =>
    rw [if_pos rfl]
    cases hb : AssocList.get record topic with
    | none => exact .offline hpriv hb
    | some b =>
      obtain ⟨wId, hwId⟩ := hrec topic b hb
      simp only [hwId]
      by_cases hne : w ≠ wId.toNat
      · rw [if_pos hne]
        cases push <;> exact .moved wId hpriv hb hwId hne
      · rw [if_neg hne]
        have heq : w = wId.toNat := not_not.1 hne
        cases hm : objectOf allSubscribeMap topic with
        | none => exact .absent wId hpriv hb hwId heq hm
        | some o => exact .own wId hpriv hb hwId heq

theorem handleTopic_extends (hrec : RecordsRead record) :
    Extends [topic] r (handleTopic after push w record allSubscribeMap topic obj r).1 := by
  have h := handleTopic_outcome after push w allSubscribeMap topic obj r hrec
  generalize handleTopic after push w record allSubscribeMap topic obj r = out at h ⊢
  cases h with
  | plain hpriv => exact postAll_extends _ _ _
  | offline hpriv hb =>
    exact ⟨List.Subset.refl _, List.Subset.refl _, List.subset_append_left _ _, fun _ _ _ => rfl⟩
  | moved wId hpriv hb hwId hw =>
    dsimp only
    split
    · exact ⟨List.Subset.refl _, List.subset_append_left _ _, List.Subset.refl _, fun _ _ _ => rfl⟩
    · exact .refl _ _
  | absent wId hpriv hb hwId hw hmap =>
    exact ⟨List.Subset.refl _, List.Subset.refl _, List.Subset.refl _,
      fun cid _ ht => cachedFor_store_of_ne _ _ _ _ cid (by simpa using ht)⟩
  | own wId hpriv hb hwId hw => exact r.extends_post _ _ _

/-- In a table without numbers the run ends with a topic only where its session is on another
worker, or not in the table. -/
theorem handleTopic_stops (hrec : RecordsRead record) (hobj : isPrivate topic = false → AllObjects allSubscribeMap)
    (h : (handleTopic after push w record allSubscribeMap topic obj r).2 = false) :
    EndsRun w record allSubscribeMap topic := by
  have hout := handleTopic_outcome after push w allSubscribeMap topic obj r hrec
  generalize handleTopic after push w record allSubscribeMap topic obj r = out at h hout
  cases hout with
  | plain hpriv => simp [postAll_goesOn (hobj hpriv)] at h
  | offline hpriv hb => simp at h
  | moved wId hpriv hb hwId hw => exact Or.inl ⟨hpriv, _, wId, hb, hwId, Ne.symm hw⟩
  | absent wId hpriv hb hwId hw hmap => exact Or.inr ⟨⟨hpriv, _, wId, hb, hwId, hw.symm⟩, hmap⟩
  | own wId hpriv hb hwId hw => simp at h

variable {topic obj}

theorem handleTopic_handled (hrec : RecordsRead record) (hkeys : (allSubscribeMap.map Prod.fst).Nodup)
    {es : List Popped} (hfound : FoundIn es topic obj) (hpush : SessionOn (· ≠ w) record topic → push = .ok)
    (hown : SessionOn (· = w) record topic →
      ∀ cId obj, (cId, AreaVal.object obj) ∈ allSubscribeMap → Subscribed after topic obj → cId = topic)
    (hobj : isPrivate topic = false → AllObjects allSubscribeMap)
    (hwild : isPrivate topic = false →
      ∀ cId obj, (cId, AreaVal.object obj) ∈ allSubscribeMap → WildcardSet after topic obj) :
    Handled after w record allSubscribeMap es (handleTopic after push w record allSubscribeMap topic obj r).1 topic := by
  have h := handleTopic_outcome after push w allSubscribeMap topic obj r hrec
  generalize handleTopic after push w record allSubscribeMap topic obj r = out at h ⊢
  unfold Handled
  cases h with
  | plain hpriv =>
    rw [if_neg (by simp [hpriv])]
    intro cId o he hsub
    obtain ⟨hp, hc⟩ := postAll_posts (hobj hpriv) obj.o r he (notifies_of_subscribed hsub (hwild hpriv cId o he))
    exact ⟨hp, _, hc, hfound.newest⟩
  | offline hpriv hb =>
    rw [if_pos hpriv, hb]
    simp
  | moved wId hpriv hb hwId hw =>
    rw [if_pos hpriv, hb]
    obtain ⟨e, he, ht, hbuff, ho⟩ := hfound.entry
    have hok := hpush ⟨hpriv, _, wId, hb, hwId, Ne.symm hw⟩
    refine ⟨wId, hwId, ?_⟩
    rw [if_neg hw, if_pos hok]
    exact ⟨e, he, ht, by simp [hbuff], ho ▸ hfound.newest⟩
  | absent wId hpriv hb hwId hw hmap =>
    rw [if_pos hpriv, hb]
    refine ⟨wId, hwId, ?_⟩
    rw [if_pos hw]
    intro cId o he hsub
    -- a subscribed session would be in the table
    obtain rfl := hown ⟨hpriv, _, wId, hb, hwId, hw.symm⟩ cId o he hsub
    rw [objectOf_eq_some.2 (AssocList.get_of_mem hkeys he)] at hmap
    cases hmap
  | own wId hpriv hb hwId hw =>
    rw [if_pos hpriv, hb]
    refine ⟨wId, hwId, ?_⟩
    rw [if_pos hw]
    intro cId o he hsub
    have hkey := hown ⟨hpriv, _, wId, hb, hwId, hw.symm⟩ cId o he hsub
    rw [hkey]
    exact ⟨by simp [Handling.post], _, cachedFor_store_self _ _ _ _, hfound.newest⟩

variable {after push w allSubscribeMap}

theorem handleTopics_extends (hrec : RecordsRead record) (cacheL1 : CacheL1) (order : List Bytes) (r : Handling) :
    Extends order r (handleTopics after push w record allSubscribeMap cacheL1 order r) := by
  induction order generalizing r with
  | nil => exact .refl _ _
  | cons t order ih =>
    rw [handleTopics]
    cases hg : AssocList.get cacheL1 t with
    | none => exact (Extends.refl [t] r).trans (ih r)
    | some obj =>
      have hext := handleTopic_extends after push w allSubscribeMap t obj r hrec
      simp only
      cases hout : handleTopic after push w record allSubscribeMap t obj r with
      | mk r' go =>
        rw [hout] at hext
        cases go with
        | true => exact hext.trans (ih r')
        | false => exact hext.trans (.refl order r')

theorem handleTopic_pushed (hrec : RecordsRead record) (t : Bytes) (obj : CacheObj) (r : Handling) {p : Nat × Bytes}
    (hp : p ∈ (handleTopic after push w record allSubscribeMap t obj r).1.pushed) : p ∈ r.pushed ∨ p.2 = obj.b := by
  have h := handleTopic_outcome after push w allSubscribeMap t obj r hrec
  generalize handleTopic after push w record allSubscribeMap t obj r = out at h hp
  cases h with
  | plain hpriv => exact Or.inl (postAll_pushed _ _ _ ▸ hp)
  | offline hpriv hb => exact Or.inl hp
  | moved wId hpriv hb hwId hw =>
    dsimp only at hp
    split at hp
    · rcases List.mem_append.1 hp with hp | hp
      · exact Or.inl hp
      · exact Or.inr (by rw [List.mem_singleton.1 hp])
    · exact Or.inl hp
  | absent wId hpriv hb hwId hw hmap => exact Or.inl hp
  | own wId hpriv hb hwId hw => exact Or.inl hp

/-- What is pushed is the entry kept for a topic. -/
theorem handleTopics_pushed (hrec : RecordsRead record) {cacheL1 : CacheL1} (order : List Bytes) (r : Handling)
    {p : Nat × Bytes} (hp : p ∈ (handleTopics after push w record allSubscribeMap cacheL1 order r).pushed) :
    p ∈ r.pushed ∨ ∃ t obj, AssocList.get cacheL1 t = some obj ∧ p.2 = obj.b := by
  induction order generalizing r with
  | nil => exact Or.inl hp
  | cons t order ih =>
    rw [handleTopics] at hp
    cases hg : AssocList.get cacheL1 t with
    | none =>
      rw [hg] at hp
      exact ih r hp
    | some obj =>
      have hone : p ∈ (handleTopic after push w record allSubscribeMap t obj r).1.pushed →
          p ∈ r.pushed ∨ ∃ t obj, AssocList.get cacheL1 t = some obj ∧ p.2 = obj.b :=
        fun hp => (handleTopic_pushed hrec t obj r hp).imp_right fun he => ⟨t, obj, hg, he⟩
      rw [hg] at hp
      simp only at hp
      cases hout : handleTopic after push w record allSubscribeMap t obj r with
      | mk r' go =>
        rw [hout] at hone hp
        cases go with
        | true => exact (ih r' hp).elim hone Or.inr
        | false => exact hone hp

/-- Where only the last topic ends the run, every topic is handled. -/
theorem handleTopics_handled (hrec : RecordsRead record) (hkeys : (allSubscribeMap.map Prod.fst).Nodup)
    {cacheL1 : CacheL1} {es : List Popped} {order : List Bytes} (r : Handling) (hnodup : order.Nodup)
    (hfound : ∀ t ∈ order, ∃ obj, AssocList.get cacheL1 t = some obj ∧ FoundIn es t obj)
    (hlast : ∀ pre t post, order = pre ++ t :: post → EndsRun w record allSubscribeMap t → post = [])
    (hpush : ∀ t ∈ order, SessionOn (· ≠ w) record t → push = .ok)
    (hown : ∀ t ∈ order, SessionOn (· = w) record t →
      ∀ cId obj, (cId, AreaVal.object obj) ∈ allSubscribeMap → Subscribed after t obj → cId = t)
    (hobj : ∀ t ∈ order, isPrivate t = false → AllObjects allSubscribeMap)
    (hwild : ∀ t ∈ order, isPrivate t = false →
      ∀ cId obj, (cId, AreaVal.object obj) ∈ allSubscribeMap → WildcardSet after t obj) :
    ∀ t ∈ order, Handled after w record allSubscribeMap es
      (handleTopics after push w record allSubscribeMap cacheL1 order r) t := by
  induction order generalizing r with
  | nil => simp
  | cons t order ih =>
    obtain ⟨hnot, hnodup⟩ := List.nodup_cons.1 hnodup
    obtain ⟨obj, hget, hf⟩ := hfound t (by simp)
    have hhere := handleTopic_handled after push w allSubscribeMap r hrec hkeys hf (hpush t (by simp)) (hown t (by simp))
      (hobj t (by simp)) (hwild t (by simp))
    have hstop := handleTopic_stops after push w allSubscribeMap t obj r hrec (hobj t (by simp))
    rw [handleTopics, hget]
    simp only
    cases hout : handleTopic after push w record allSubscribeMap t obj r with
    | mk r' go =>
      rw [hout] at hhere hstop
      cases go with
      | true =>
        intro t' ht'
        rcases List.mem_cons.1 ht' with rfl | ht'
        · exact hhere.mono (handleTopics_extends hrec cacheL1 order r') hnot
        · refine ih r' hnodup (fun t h => hfound t (by simp [h]))
            (fun pre u post he => hlast (t :: pre) u post (congrArg (t :: ·) he))
            (fun t h => hpush t (by simp [h])) (fun t h => hown t (by simp [h])) (fun t h => hobj t (by simp [h]))
            (fun t h => hwild t (by simp [h])) t' ht'
      | false =>
        obtain rfl := hlast [] t order rfl (hstop rfl)
        intro t' ht'
        rw [List.mem_singleton.1 ht']
        exact hhere

end

/-! ## Runs -/

structure WorkersInv (L : OffsetCodec) (serverId : Bytes) (s : Workers) : Prop where
  queue : ∀ w, ∀ b ∈ s.queue w, Entry L b
  record : ∀ e ∈ s.record, ∃ session, sessionRecord serverId session = .ok e.2
  keys : ∀ w m, s.allSubscribeMap w = some m → (m.map Prod.fst).Nodup

theorem recordWorker_sessionRecord {serverId : Bytes} {session : Session} {b : Bytes}
    (h : sessionRecord serverId session = .ok b) : recordWorker b = .ok session.worker := by
  obtain ⟨sid, hsid, h⟩ := bind_eq_ok.1 h
  obtain ⟨srv, hsrv, h⟩ := bind_eq_ok.1 h
  obtain ⟨hlen, rfl⟩ := encodeUtf8_eq_ok hsid
  obtain ⟨hlen', rfl⟩ := encodeUtf8_eq_ok hsrv
  obtain rfl := Except.ok.inj h
  have hback : decodeUtf8 (utilityMqttWriteUint16 serverId.length ++ serverId) = .ok (serverId, []) := by
    simpa using decodeUtf8_write hlen' []
  simp only [recordWorker, decodeUtf8_write hlen, bind, Except.bind, hback]
  rfl

section

variable {L : OffsetCodec} {serverId : Bytes} {s : Workers}

theorem WorkersInv.recordsRead (h : WorkersInv L serverId s) : RecordsRead s.record := by
  intro c b hb
  obtain ⟨session, hs⟩ := h.record _ (AssocList.mem_of_get hb)
  exact ⟨_, recordWorker_sessionRecord hs⟩

/-- A run over entries of the notifier takes them all. -/
theorem WorkersInv.processSubscribeHandler_eq (h : WorkersInv L serverId s) (after : Behind) (push : PushResult)
    (order : List Bytes) (w : Nat) :
    processSubscribeHandler after L push order w s = ((s.queue w).drop drainCount,
      match s.allSubscribeMap w with
      | none => ⟨s.semaphoreCache w, [], [], []⟩
      | some m => handleTopics after push w s.record m ((taken L (s.queue w)).foldl cacheL1Step []) order
          ⟨s.semaphoreCache w, [], [], []⟩) := by
  simp only [processSubscribeHandler, drainLoop_eq (h.queue w), taken]
  cases s.allSubscribeMap w <;> rfl

theorem WorkersInv.noneDropped (h : WorkersInv L serverId s) {after : Behind} (c : WorkerStep)
    (hvisits : VisitsAll L s c) (hclear : Clear after L s c) : NoneDropped after L s c := by
  cases c with
  | notify fails payload => trivial
  | connect clientId session => trivial
  | disconnect clientId => trivial
  | subscribe w clientId obj => trivial
  | field w field n => trivial
  | handle push order w =>
    obtain ⟨hnodup, hmem⟩ := hvisits
    intro e he
    have hin : e.topic ∈ order := (hmem _).2 ⟨e, he, rfl⟩
    rw [h.processSubscribeHandler_eq]
    cases hm : s.allSubscribeMap w with
    | none =>
      have hnil : ∀ r t, PostedToAll after [] (taken L (s.queue w)) r t := fun _ _ _ _ he => by simp at he
      unfold Handled
      by_cases hpriv : isPrivate e.topic = true
      · obtain ⟨-, b, wId, hb, hwId, hw⟩ := hclear.table hm _ hin hpriv
        rw [if_pos hpriv, hb]
        refine ⟨wId, hwId, ?_⟩
        rw [if_pos hw.symm]
        exact hnil _ _
      · rw [if_neg hpriv]
        exact hnil _ _
    | some m =>
      exact handleTopics_handled h.recordsRead (h.keys w m hm) _ hnodup
        (fun t ht => exists_foundIn ((hmem t).1 ht) (hclear.newest t)) (hclear.last m hm) hclear.pushed (hclear.own m hm)
        (hclear.objects m hm) (hclear.wildcards m hm) _ hin

theorem lpush_entries {queue : Nat → List Bytes} (h : ∀ w, ∀ b ∈ queue w, Entry L b) (w : Nat) {value : Bytes}
    (hv : Entry L value) : ∀ w', ∀ b ∈ lpush queue w value w', Entry L b := by
  intro w' b hb
  by_cases hw : w' = w
  · subst hw
    rw [lpush, Function.update_self] at hb
    rcases List.mem_append.1 hb with hb | hb
    · exact h w' b hb
    · rw [List.mem_singleton.1 hb]
      exact hv
  · rw [lpush, Function.update_of_ne hw] at hb
    exact h w' b hb

theorem lpushAll_entries {fails : Nat → Bool} {value : Bytes} (hv : Entry L value) (ws : List Nat)
    {queue : Nat → List Bytes} (h : ∀ w, ∀ b ∈ queue w, Entry L b) :
    ∀ w, ∀ b ∈ lpushAll fails value ws queue w, Entry L b := by
  induction ws generalizing queue with
  | nil => exact h
  | cons w ws ih =>
    rw [lpushAll]
    split
    · exact h
    · exact ih (lpush_entries h w hv)

theorem foldl_lpush_entries {ps : List (Nat × Bytes)} (hps : ∀ p ∈ ps, Entry L p.2) {queue : Nat → List Bytes}
    (h : ∀ w, ∀ b ∈ queue w, Entry L b) :
    ∀ w, ∀ b ∈ ps.foldl (fun q e => lpush q e.1 e.2) queue w, Entry L b := by
  induction ps generalizing queue with
  | nil => exact h
  | cons p ps ih => exact ih (fun q hq => hps q (by simp [hq])) (lpush_entries h p.1 (hps p (by simp)))

/-- The notifier writes entries. -/
theorem WorkersInv.notify (h : WorkersInv L serverId s) {count : Nat} {fails : Nat → Bool} {payload : Bytes} {s' : Workers}
    (hs : notifyProcess L count fails s payload = .ok s') : WorkersInv L serverId s' := by
  obtain ⟨⟨topic, rest⟩, -, hs⟩ := bind_eq_ok.1 hs
  obtain ⟨topicBytes, henc, hs⟩ := bind_eq_ok.1 hs
  have hentry : Entry L (L.uint64ToBytes (L.readUint64 payload) ++ topicBytes) := ⟨_, topic, _, henc, rfl⟩
  simp only at hs
  split at hs
  · split at hs
    · exact Except.ok.inj hs ▸ h
    · simp at hs
    · split at hs
      · exact Except.ok.inj hs ▸ h
      · exact Except.ok.inj hs ▸ ⟨lpush_entries h.queue _ hentry, h.record, h.keys⟩
  · exact Except.ok.inj hs ▸ ⟨lpushAll_entries hentry _ h.queue, h.record, h.keys⟩

theorem WorkersInv.pushed (h : WorkersInv L serverId s) (after : Behind) (push : PushResult)
    (order : List Bytes) (w : Nat) : ∀ p ∈ (processSubscribeHandler after L push order w s).2.pushed, Entry L p.2 := by
  intro p hp
  rw [h.processSubscribeHandler_eq] at hp
  cases hm : s.allSubscribeMap w with
  | none => simp [hm] at hp
  | some m =>
    simp only [hm] at hp
    rcases handleTopics_pushed h.recordsRead order _ hp with hp | ⟨t, obj, hg, hp⟩
    · simp at hp
    · rcases get_cacheL1 hg with hg | ⟨e, he, -, rfl⟩
      · simp [AssocList.get] at hg
      · obtain ⟨b, hb, hdec⟩ := List.mem_filterMap.1 he
        have hentry := h.queue w b (List.mem_of_mem_take hb)
        obtain ⟨-, e', he', hbuff⟩ := hentry.decode
        rw [he'] at hdec
        obtain rfl := Option.some.inj hdec
        rw [hp, hbuff]
        exact hentry

/-- Another table for worker `w`. -/
theorem WorkersInv.setTable (h : WorkersInv L serverId s) (w : Nat) {tab : Option SubscribeMap}
    (htab : ∀ m, tab = some m → (m.map Prod.fst).Nodup) :
    WorkersInv L serverId { s with allSubscribeMap := Function.update s.allSubscribeMap w tab } := by
  refine ⟨h.queue, h.record, fun w' m hm => ?_⟩
  simp only [Function.update_apply] at hm
  split at hm
  · exact htab m hm
  · exact h.keys w' m hm

theorem WorkersInv.step (h : WorkersInv L serverId s) (after : Behind) (count : Nat) (c : WorkerStep) :
    WorkersInv L serverId (workerStep after L count serverId s c) := by
  cases c with
  | notify fails payload =>
    rw [workerStep]
    split
    · rename_i hs
      exact h.notify hs
    · exact h
  | connect clientId session =>
    rw [workerStep]
    split
    · rename_i b hb
      refine ⟨h.queue, fun e he => ?_, h.keys⟩
      rcases List.mem_cons.1 he with rfl | he
      · exact ⟨session, hb⟩
      · exact h.record e (List.mem_filter.1 he).1
    · exact h
  | disconnect clientId => exact ⟨h.queue, fun e he => h.record e (List.mem_filter.1 he).1, h.keys⟩
  | subscribe w clientId obj => exact h.setTable w (nodup_mqttSet (h.keys w) clientId _ rfl)
  | field w field n =>
    refine h.setTable w fun m hm => ?_
    cases ht : s.allSubscribeMap w with
    | none =>
      rw [ht] at hm
      cases hm
    | some tab =>
      rw [ht] at hm
      obtain rfl := Option.some.inj hm
      exact AssocList.nodup_set _ _ _ (h.keys w tab ht)
  | handle push order w =>
    refine ⟨foldl_lpush_entries (h.pushed after push order w) ?_, h.record, h.keys⟩
    intro w' b hb
    by_cases hw : w' = w
    · subst hw
      rw [Function.update_self] at hb
      change b ∈ (processSubscribeHandler after L push order w' s).1 at hb
      rw [h.processSubscribeHandler_eq] at hb
      exact h.queue w' b (List.mem_of_mem_drop hb)
    · rw [Function.update_of_ne hw] at hb
      exact h.queue w' b hb

end

/-- **No notification is dropped** in a run in which every run of the handler is clear. -/
theorem notifications_handled (L : OffsetCodec) (after : Behind) (count : Nat) (serverId : Bytes)
    (cs : List WorkerStep)
    (h : Always (workerStep after L count serverId) (fun s c => VisitsAll L s c ∧ Clear after L s c) .start cs) :
    Always (workerStep after L count serverId) (NoneDropped after L) .start cs := by
  have hinv : WorkersInv L serverId .start := ⟨by simp [Workers.start], by simp [Workers.start], by simp [Workers.start]⟩
  exact always_of_inv _ (fun _ c hs hc => hs.noneDropped c hc.1 hc.2) (fun _ c hs _ => hs.step after count c) hinv h

/-! ### Two topics at a time -/

def beCodec : OffsetCodec where
  readUint64 := fun b => (b.take 8).foldl (fun v d => v * 256 + d.toNat) 0
  uint64ToBytes := toBe 8
  length_uint64ToBytes := length_toBe 8

/-- A session with one plain topic. -/
def plainObj (topic : Bytes) : SubscribeObj := ⟨some [topic], false⟩

/-- A session of worker 1 subscribes to topic `a`, which is notified with offset 7. -/
def subscribeAndNotify : List WorkerStep :=
  [.subscribe 1 [0x63] (some (plainObj [0x61])), .notify (fun _ => false) (toBe 8 7 ++ [0, 1, 0x61])]

def zeroBehind : Behind := fun _ => Stream'.const 0

theorem isPrivate_a : isPrivate [0x61] = false := by decide

/-- The handler of worker 1 then posts the session. -/
theorem notifications_handled_one :
    Always (workerStep zeroBehind beCodec 3 []) (NoneDropped zeroBehind beCodec) .start
      (subscribeAndNotify ++ [.handle .ok [[0x61]] 1]) := by
  have htaken : taken beCodec ((run (workerStep zeroBehind beCodec 3 []) .start subscribeAndNotify).queue 1) =
      [⟨7, [0x61], toBe 8 7 ++ [0, 1, 0x61], 12⟩] := by decide +kernel
  have hplain : ∀ p record, ∀ t ∈ [[0x61]], ¬ SessionOn p record t := by
    intro p record t ht hs
    rw [SessionOn, List.mem_singleton.1 ht, isPrivate_a] at hs
    exact absurd hs.1 (by simp)
  refine notifications_handled beCodec zeroBehind 3 [] _ ((always_append _).2
    ⟨⟨⟨trivial, trivial⟩, ⟨trivial, trivial⟩, trivial⟩, ⟨?_, ?_⟩, trivial⟩)
  · rw [VisitsAll, htaken]
    refine ⟨by simp, fun t => ?_⟩
    simp [eq_comm]
  · refine ⟨fun t a n _ hn => ?_, fun hm => ?_, fun m hm pre t post he _ => ?_, fun t ht hs => ?_, fun m hm t ht hs => ?_,
      fun m hm t _ _ e he => ?_, fun m hm t ht _ cId obj he fs hfs hno => ?_⟩
    · rw [htaken] at hn ⊢
      obtain ⟨hn, -⟩ := hn
      by_cases ht : t = [0x61]
      · subst ht
        exact ⟨[], [], by simp [offsetsOf] at hn ⊢; exact hn.symm, by simp⟩
      · simp [offsetsOf, Ne.symm ht] at hn
    · change some _ = none at hm
      simp at hm
    · have hlen := congrArg List.length he
      simp only [List.length_append, List.length_cons, List.length_nil] at hlen
      exact List.length_eq_zero_iff.1 (by omega)
    · exact absurd hs (hplain _ _ t ht)
    · exact absurd hs (hplain _ _ t ht)
    · obtain rfl : [([0x63], AreaVal.object (plainObj [0x61]))] = m := Option.some.inj hm
      exact ⟨_, congrArg Prod.snd (List.mem_singleton.1 he)⟩
    · obtain rfl : [([0x63], AreaVal.object (plainObj [0x61]))] = m := Option.some.inj hm
      obtain ⟨rfl, hval⟩ := Prod.mk.inj (List.mem_singleton.1 he)
      obtain rfl := AreaVal.object.inj hval
      obtain rfl : [[0x61]] = fs := Option.some.inj hfs
      exact absurd ht hno

/-- Client `P/x` is notified while it is on worker 1, and logs in again on worker 2. -/
def relogin : List WorkerStep :=
  [.connect [0x50, 0x2f, 0x78] ⟨1, [0x31]⟩, .notify (fun _ => false) (toBe 8 5 ++ [0, 3, 0x50, 0x2f, 0x78]),
    .connect [0x50, 0x2f, 0x78] ⟨2, [0x32]⟩]

/-- In the run of worker 1 that pushes it on, the subscriber of `a` gets nothing. -/
theorem relogin_drops_the_rest :
    ¬ ∀ (L : OffsetCodec) (after : Behind) (count : Nat) (serverId : Bytes) (cs : List WorkerStep),
      Always (workerStep after L count serverId) (VisitsAll L) .start cs →
        Always (workerStep after L count serverId) (NoneDropped after L) .start cs := by
  intro h
  have hall := h beCodec zeroBehind 3 [] ((relogin ++ subscribeAndNotify) ++ [.handle .ok [[0x50, 0x2f, 0x78], [0x61]] 1])
  have htaken : taken beCodec
      ((run (workerStep zeroBehind beCodec 3 []) .start (relogin ++ subscribeAndNotify)).queue 1) =
        [⟨5, [0x50, 0x2f, 0x78], toBe 8 5 ++ [0, 3, 0x50, 0x2f, 0x78], 14⟩,
          ⟨7, [0x61], toBe 8 7 ++ [0, 1, 0x61], 12⟩] := by decide +kernel
  have hposted : (processSubscribeHandler zeroBehind beCodec .ok [[0x50, 0x2f, 0x78], [0x61]] 1
      (run (workerStep zeroBehind beCodec 3 []) .start (relogin ++ subscribeAndNotify))).2.posted = [] := by
    decide +kernel
  rw [always_concat, always_concat] at hall
  obtain ⟨-, hdrop⟩ := hall ⟨⟨trivial, trivial, trivial, trivial, trivial, trivial⟩, by
    rw [VisitsAll, htaken]
    refine ⟨by decide, fun t => ?_⟩
    simp [eq_comm]⟩
  have ha := hdrop ⟨7, [0x61], toBe 8 7 ++ [0, 1, 0x61], 12⟩ (by rw [htaken]; simp)
  rw [Handled, if_neg (by simp [isPrivate_a])] at ha
  have hpost := (ha [0x63] (plainObj [0x61]) List.mem_cons_self ⟨[[0x61]], rfl, Or.inl (by simp)⟩).1
  rw [hposted] at hpost
  simp at hpost

end NgxPlus.Mqtt
