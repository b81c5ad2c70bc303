import NgxPlus.Mqtt.QosDelivery
import NgxPlus.Mqtt.Worker

/-!
# The subscription thread of a session

| here | there |
| --- | --- |
| `Sub`, `State.subs`  | an entry of `self.subsMap`, and the table |
| `State.iswildcard`, `ismore` | the fields of the session in `AREA_SUBSCRIBEMAP` (`mqtt.lua:969`) |
| `TopicPass`          | `mqtt_process_subscribe` under way (`mqtt_server_module.lua:321-461`): filters not read yet, topics read with their offsets, `ismore` |
| `State.table`        | `offsetTable` (`:349-369`) |
| `State.body`, `goesOn` | the body for one topic (`:370-451`), and whether it sets `ismore` |
| `State.finish`       | the end of `mqtt_process_subscribe` (`:453-460`) |
| `State.raise`        | an error in a coroutine ends it; in that of the connection, the session's thread too |
| `Thread`, `State.wake`, `State.timeout` | `__handler` (`mqtt.lua:924-973`) |
| `State.notify`       | the entry of the topic in the offset dictionary (`OffsetProcess.lean`) |
| `State.handle`       | what `process_subscribe_handler` does for the session (`mqtt_notify_2worker_module.lua:88-122`): `handleTopic_session` |
| `State.subscribe`, `State.puback`, `State.pingreq` | the messages of the client (`mqtt.lua:1075-1198`, `mqtt_server_module.lua:463-521`, `mqtt.lua:1059-1064`) |

The coroutines of a worker are interleaved where they yield: the thread waits for its semaphore, and a
pass reads the offsets of a filter and then takes the topics one by one. The body for a topic is
one step. `pairs` visits a table in any order (`order`); what a listing of a wildcard filter finds
is given (`Listing.lean`).

`underway`, `reached` and `orphaned` are there to say how far the session is. Left out: `subs.max`,
`UNSUBSCRIBE`, the check of the session in `PINGREQ` (`Session.lean`), the end of the session.
-/

namespace NgxPlus.Mqtt.Wakeup

open ByteMem
open NgxPlus.Diversion (Behind LuaError)

/-! ## The state -/

structure Sub where
  filter : Bytes
  qos : Nat
  min : Int
deriving DecidableEq, Repr

/-- A topic of `offsetTable`. -/
structure Task where
  topic : Bytes
  newoffset : Int
  sub : Sub
deriving DecidableEq, Repr

structure TopicPass where
  rest : List Sub
  todo : List Task
  more : Bool
deriving DecidableEq, Repr

inductive Thread
  /-- In `sema:wait`; `seen` unless the session's table was not there yet. -/
  | waiting (seen : Bool)
  /-- In a pass; `cached` when it is over the topics of the cache. -/
  | passing (cached : Bool) (p : TopicPass)
  /-- An error ended it. -/
  | ended
deriving DecidableEq, Repr

structure State where
  subs : List Sub
  topics : Bytes → TopicKey
  server : Server
  cache : SemaphoreCache
  count : Nat
  iswildcard : Bool
  ismore : Bool
  thread : Thread
  /-- The pass of a `SUBSCRIBE`, in the connection's coroutine. -/
  conn : Option TopicPass
  /-- The notification of the topic is not handled yet. -/
  underway : Bytes → Bool
  /-- The largest offset that was stored for the client. -/
  reached : Bytes → WithBot Int
  /-- Since the topic's offset was last read for a pass a message with QoS was sent, and there was or
  is no entry for its acknowledgement. -/
  orphaned : Bytes → Bool

/-- Who makes a pass. -/
inductive Runner
  | thread
  | conn
deriving DecidableEq, Repr

def Thread.pass : Thread → Option TopicPass
  | .waiting _ => none
  | .passing _ p => some p
  | .ended => none

def Thread.put (p : TopicPass) : Thread → Thread
  | .passing cached _ => .passing cached p
  | thread => thread

def State.pass (s : State) : Runner → Option TopicPass
  | .thread => s.thread.pass
  | .conn => s.conn

def State.put (s : State) (p : TopicPass) : Runner → State
  | .thread => { s with thread := s.thread.put p }
  | .conn => { s with conn := some p }

/-- `ismore=1` and `semaphore:post()`. -/
def State.post (s : State) : State := { s with ismore := true, count := s.count + 1 }

def State.newest (s : State) (topic : Bytes) : Option Int := s.server.offsets (subscribeStore topic) topic

section

variable (W : ServerLibs) (me : ClientId) (after : Behind)

def State.cached (s : State) : Option (AssocList Bytes Nat) := AssocList.get s.cache me.1

def State.entry (s : State) (topic : Bytes) : Option Outstanding := s.server.dicts.getOutstanding me.1 topic

/-- The offset of topic `topic` that is stored gets `offset`. -/
def State.reach (s : State) (topic : Bytes) (offset : Int) : State :=
  { s with reached := Function.update s.reached topic (max (s.reached topic) offset) }

/-- With other entries in the outstanding dictionary; `acked` is the topic that was acknowledged. -/
def State.withServer (s : State) (server : Server) (acked : Option Bytes) : State :=
  { s with
    server := server
    orphaned := fun t => s.orphaned t ||
      ((s.entry me t).isSome && (server.dicts.getOutstanding me.1 t).isNone && acked != some t) }

/-! ## A pass -/

def State.table (s : State) (sub : Sub) (listing : List (Bytes × Int)) : List (Bytes × Int) :=
  if ngxMqttTopicIsExpression sub.filter then listing
  else ((s.newest sub.filter).map fun newoffset => (sub.filter, newoffset)).toList

def State.oldoffset (s : State) (k : Task) : Int :=
  (s.server.consumer me k.topic).getD (initialOffset k.newoffset k.sub.min)

/-- Where the body goes on (`:371-401`). -/
def State.resume (s : State) (k : Task) (now : Int) : Except LuaError Int :=
  if k.sub.qos > 0 then resendFrom s.server.dicts me.1 k.topic now k.newoffset (s.oldoffset me k) else .ok (s.oldoffset me k)

/-- More than a page is left (`:424-426`). -/
def State.goesOn (s : State) (k : Task) (now : Int) : Bool :=
  match s.resume me k now with
  | .error _ => false
  | .ok oldoffset =>
    let (oldoffset, newoffset) := ringAdjust oldoffset k.newoffset
    if newoffset > oldoffset then
      let oldoffset := if newoffset > oldoffset + subMaxRange then newoffset - subMaxRange else oldoffset
      decide (newoffset - oldoffset > subPagesize)
    else false

def State.passed (s : State) (k : Task) (clock : PassClock) : QosPass :=
  passFor W.toLibs clock k.newoffset me.1 k.topic k.sub.qos
    ⟨s.topics k.topic, s.server.dicts, s.oldoffset me k, [], [], []⟩

def State.body (s : State) (k : Task) (clock : PassClock) : State :=
  let r := s.passed W me k clock
  let s := { s with
    topics := Function.update s.topics k.topic r.key
    server := { s.server with dicts := r.dicts, consumer := setTopic s.server.consumer me k.topic r.consumer }
    orphaned := Function.update s.orphaned k.topic
      (s.orphaned k.topic || (!r.ids.isEmpty && (r.dicts.getOutstanding me.1 k.topic).isNone)) }
  s.reach k.topic r.consumer

/-- Behind a pass over the cached topics the cache entry is deleted (`mqtt.lua:963`). -/
def State.leave (s : State) : Runner → State
  | .thread =>
    match s.thread with
    | .passing cached _ =>
      { s with
        thread := .waiting true
        cache := if cached then AssocList.delete s.cache me.1 else s.cache }
    | _ => s
  | .conn => { s with conn := none }

def State.readStep (s : State) (who : Runner) (listing : List (Bytes × Int)) : State :=
  match s.pass who with
  | some ⟨sub :: rest, [], more⟩ =>
    let todo := (s.table sub listing).map fun e => Task.mk e.1 e.2 sub
    { s with orphaned := fun t => s.orphaned t && !(todo.any fun k => k.topic == t) }.put ⟨rest, todo, more⟩ who
  | _ => s

/-- An error in the thread ends the thread, one in the connection's coroutine the request and its threads. -/
def State.raise (s : State) : Runner → State
  | .thread => { s with thread := .ended }
  | .conn => { s with thread := .ended, conn := none }

def State.bodyStep (s : State) (who : Runner) (clock : PassClock) : State :=
  match s.pass who with
  | some ⟨rest, k :: todo, more⟩ =>
    match s.resume me k clock.resend with
    | .error _ => s.raise who
    | .ok _ => (s.body W me k clock).put ⟨rest, todo, more || s.goesOn me k clock.resend⟩ who
  | _ => s

def State.finish (s : State) (who : Runner) : State :=
  match s.pass who with
  | some ⟨[], [], more⟩ => (if more then s.post else { s with ismore := false }).leave me who
  | _ => s

/-! ## The thread -/

/-- `{min=-1,qos=0}` for a topic that is not a key of `subsMap`. -/
def State.subFor (s : State) (topic : Bytes) : Sub :=
  (s.subs.find? fun sub => sub.filter == topic).getD ⟨topic, 0, -1⟩

/-- The pass is over the topics of the cache. -/
def State.byCache (s : State) (seen : Bool) : Bool := !(seen && s.ismore) && (s.cached me).isSome

/-- The table that `mqtt_process_subscribe` gets. -/
def State.chosen (s : State) (seen : Bool) : List Sub :=
  if s.byCache me seen then ((s.cached me).getD []).map fun e => s.subFor e.1 else s.subs

def State.wake (s : State) (order : List Sub) : State :=
  match s.thread with
  | .waiting seen =>
    if s.count = 0 then s
    else { s with count := s.count - 1, thread := .passing (s.byCache me seen) ⟨order, [], false⟩ }
  | _ => s

/-- `sema:wait` times out. -/
def State.timeout (s : State) (order : List Sub) : State :=
  match s.thread with
  | .waiting seen =>
    if seen && s.ismore then { s with thread := .passing false ⟨order, [], false⟩ }
    else { s with thread := .waiting true }
  | _ => s

/-! ## Notifications and the client's messages -/

/-- The session in `AREA_SUBSCRIBEMAP`. -/
def State.obj (s : State) : SubscribeObj := ⟨some (s.subs.map Sub.filter), s.iswildcard⟩

/-- A private topic is handed to the client that has its name. -/
def State.takes (s : State) (topic : Bytes) : Bool :=
  if isPrivate topic then topic == me.1 else notifies after topic s.obj

def State.handle (s : State) (topic : Bytes) (offset : Nat) : State :=
  let s' := { s with underway := Function.update s.underway topic false }
  if s.takes me after topic then
    { s' with cache := storeSemaphoreCache s.cache me.1 topic offset, count := s.count + 1 }
  else s'

/-- The dictionary keeps the newer of the two (`Newest.lean`). -/
def keptOffset (old : Option Int) (offset : Nat) : Int :=
  match old with
  | some o => if cAccepts o.toNat offset then offset else o
  | none => offset

def State.notify (s : State) (topic : Bytes) (offset : Nat) : State :=
  { s with
    server := { s.server with
      offsets := Function.update s.server.offsets (subscribeStore topic)
        (Function.update (s.server.offsets (subscribeStore topic)) topic (some (keptOffset (s.newest topic) offset))) }
    underway := Function.update s.underway topic true }

/-- `storeSubscribe`. -/
def putSub (subs : List Sub) (sub : Sub) : List Sub := sub :: subs.filter fun x => x.filter != sub.filter

/-- The offsets that the message gives are stored. -/
def State.storeMins (s : State) (mins : List (Bytes × Int)) : State :=
  { s with
    server := { s.server with consumer := mins.foldl (fun f e => setTopic f me e.1 e.2) s.server.consumer }
    reached := mins.foldl (fun f e => Function.update f e.1 (max (f e.1) e.2)) s.reached }

/-- A wildcard filter in the message sets `iswildcard`. -/
def State.subscribe (s : State) (order : List Sub) (mins : List (Bytes × Int)) : State :=
  if s.conn.isSome then s
  else
    { s.storeMins me mins with
      subs := order.foldl putSub s.subs
      iswildcard := s.iswildcard || order.any fun sub => ngxMqttTopicIsExpression sub.filter
      conn := some ⟨order, [], false⟩ }

def State.puback (s : State) (p : Puback) : State :=
  if s.conn.isSome then s
  else
    match (parseMessagePuback W p s.server).2 with
    | .error _ => s.raise .conn
    | .ok _ =>
      match p.found s.server with
      | none => s
      | some v =>
        let s' := (s.withServer me (parseMessagePuback W p s.server).1 (some v.topic)).reach v.topic v.offset
        if (s.server.offsets (pubackStore v.topic) v.topic).any fun o => decide (o > v.offset) then s'.post else s'

def State.pingreq (s : State) : State :=
  if s.conn.isSome then s else if s.ismore then { s with count := s.count + 1 } else s

/-! ## Steps -/

inductive Step
  | publish (topic data : Bytes) (index : Nat)
  /-- The offset gets into the dictionary. -/
  | notify (topic : Bytes) (offset : Nat)
  | handle (topic : Bytes) (offset : Nat)
  /-- The session's cache entry times out, or is evicted. -/
  | forget
  /-- An entry of the outstanding dictionary times out. -/
  | expire (key : Bytes)
  | wake (order : List Sub)
  | timeout (order : List Sub)
  | read (who : Runner) (listing : List (Bytes × Int))
  | body (who : Runner) (clock : PassClock)
  | finish (who : Runner)
  | subscribe (order : List Sub) (mins : List (Bytes × Int))
  | puback (p : Puback)
  | pingreq

def step (s : State) : Step → State
  | .publish topic data index =>
    { s with topics := Function.update s.topics topic (mqttZadd (s.topics topic) data index).1 }
  | .notify topic offset => s.notify topic offset
  | .handle topic offset => s.handle me after topic offset
  | .forget => { s with cache := AssocList.delete s.cache me.1 }
  | .expire key =>
    s.withServer me { s.server with
      dicts := { s.server.dicts with outstanding := Function.update s.server.dicts.outstanding key none } } none
  | .wake order => s.wake me order
  | .timeout order => s.timeout order
  | .read who listing => s.readStep who listing
  | .body who clock => s.bodyStep W me who clock
  | .finish who => s.finish me who
  | .subscribe order mins => s.subscribe me order mins
  | .puback p => s.puback W me p
  | .pingreq => s.pingreq

end

/-! ## The session in a run of the handler -/

section

variable {me : ClientId} {after : Behind} {s : State} {topic : Bytes}

theorem handling_post_of_ne {hd : Handling} {cId : Bytes} (hne : cId ≠ me.1) (topic : Bytes) (offset : Nat) :
    AssocList.get (hd.post cId topic offset).semaphoreCache me.1 = AssocList.get hd.semaphoreCache me.1 ∧
      (hd.post cId topic offset).posted.count me.1 = hd.posted.count me.1 := by
  refine ⟨AssocList.get_set_of_ne _ _ hne.symm, ?_⟩
  rw [Handling.post, List.count_append, List.count_singleton, if_neg (by simpa using hne), Nat.add_zero]

theorem postAll_cons {cId : Bytes} {obj : SubscribeObj} (after : Behind) (topic : Bytes) (offset : Nat) (map : SubscribeMap)
    (hd : Handling) : postAll after topic offset ((cId, .object obj) :: map) hd =
      postAll after topic offset map (if notifies after topic obj then hd.post cId topic offset else hd) := rfl

theorem postAll_append {l : SubscribeMap} (hl : AllObjects l) (after : Behind) (topic : Bytes) (offset : Nat)
    (map : SubscribeMap) (hd : Handling) :
    postAll after topic offset (l ++ map) hd = postAll after topic offset map (postAll after topic offset l hd).1 := by
  induction l generalizing hd with
  | nil => rfl
  | cons e l ih =>
    obtain ⟨cId, val⟩ := e
    obtain ⟨obj, rfl⟩ := hl (cId, val) List.mem_cons_self
    rw [List.cons_append, postAll_cons, postAll_cons]
    exact ih (fun x hx => hl x (List.mem_cons_of_mem _ hx)) _

/-- The sessions of other clients. -/
theorem postAll_of_ne (after : Behind) {map : SubscribeMap} (hne : ∀ e ∈ map, e.1 ≠ me.1) (topic : Bytes)
    (offset : Nat) (hd : Handling) :
    let r := (postAll after topic offset map hd).1
    AssocList.get r.semaphoreCache me.1 = AssocList.get hd.semaphoreCache me.1 ∧
      r.posted.count me.1 = hd.posted.count me.1 := by
  induction map generalizing hd with
  | nil => exact ⟨rfl, rfl⟩
  | cons e map ih =>
    obtain ⟨cId, obj | n⟩ := e
    · have hrest := ih (fun x hx => hne x (List.mem_cons_of_mem _ hx))
        (if notifies after topic obj then hd.post cId topic offset else hd)
      simp only at hrest ⊢
      rw [postAll_cons, hrest.1, hrest.2]
      split
      · exact handling_post_of_ne (hne _ List.mem_cons_self) topic offset
      · exact ⟨rfl, rfl⟩
    · exact ⟨rfl, rfl⟩

/-- What the handler has done from `hd` to `r` is what `State.handle` does to the session. -/
structure HandledFor (me : ClientId) (after : Behind) (s : State) (topic : Bytes) (offset : Nat) (hd r : Handling) : Prop where
  cached : AssocList.get r.semaphoreCache me.1 = (s.handle me after topic offset).cached me
  posted : r.posted.count me.1 + s.count = hd.posted.count me.1 + (s.handle me after topic offset).count

theorem handledFor_post (hd : Handling) (hcache : AssocList.get hd.semaphoreCache me.1 = s.cached me) (offset : Nat)
    (htakes : s.takes me after topic = true) : HandledFor me after s topic offset hd (hd.post me.1 topic offset) := by
  constructor
  · rw [State.handle, if_pos htakes, Handling.post, State.cached, storeSemaphoreCache, storeSemaphoreCache, hcache,
      AssocList.get_set_self, AssocList.get_set_self, State.cached]
  · rw [State.handle, if_pos htakes, Handling.post]
    simp only [List.count_append, List.count_singleton_self]
    omega

theorem handledFor_of_not_takes {hd r : Handling} (htakes : ¬ s.takes me after topic = true) (offset : Nat)
    (hcache : AssocList.get r.semaphoreCache me.1 = s.cached me) (hposted : r.posted.count me.1 = hd.posted.count me.1) :
    HandledFor me after s topic offset hd r := by
  constructor
  · rw [State.handle, if_neg htakes]
    exact hcache
  · rw [State.handle, if_neg htakes, hposted]

section

variable {map : SubscribeMap} {obj : CacheObj} {hd : Handling} (hcache : AssocList.get hd.semaphoreCache me.1 = s.cached me)
include hcache

/-- The session's own private topic. -/
theorem handleTopic_own (push : PushResult) {w : Nat} {record : AssocList Bytes Bytes}
    (hmap : objectOf map me.1 = some s.obj) (hprivate : isPrivate me.1 = true)
    (hhere : ∃ bs wId, AssocList.get record me.1 = some bs ∧ recordWorker bs = .ok wId ∧ w = wId.toNat) :
    HandledFor me after s me.1 obj.o hd (handleTopic after push w record map me.1 obj hd).1 := by
  have htakes : s.takes me after me.1 = true := by
    rw [State.takes, if_pos hprivate]
    exact BEq.rfl
  obtain ⟨bs, wId, hrecord, hworker, hw⟩ := hhere
  rw [handleTopic, if_pos hprivate, hrecord]
  simp only [hworker, hw, ne_eq, not_true_eq_false, if_false, hmap]
  exact handledFor_post hd hcache obj.o htakes

/-- A private topic of another client. -/
theorem handleTopic_private (push : PushResult) (w : Nat) (record : AssocList Bytes Bytes) (hprivate : isPrivate topic = true)
    (hne : topic ≠ me.1) : HandledFor me after s topic obj.o hd (handleTopic after push w record map topic obj hd).1 := by
  have htakes : ¬ s.takes me after topic = true := by
    rw [State.takes, if_pos hprivate]
    exact fun h => hne (beq_iff_eq.1 h)
  have hother : AssocList.get (hd.post topic topic obj.o).semaphoreCache me.1 = AssocList.get hd.semaphoreCache me.1 ∧
      (hd.post topic topic obj.o).posted.count me.1 = hd.posted.count me.1 := handling_post_of_ne hne topic obj.o
  refine handledFor_of_not_takes htakes obj.o ?_ ?_
  · rw [← hcache, handleTopic, if_pos hprivate]
    split
    · rfl
    split
    · rfl
    split
    · split <;> rfl
    split
    · exact hother.1
    · exact hother.1
  · rw [handleTopic, if_pos hprivate]
    split
    · rfl
    split
    · rfl
    split
    · split <;> rfl
    split
    · rfl
    · exact hother.2

/-- The loop over the local sessions comes to the session once. -/
theorem handleTopic_plain (push : PushResult) (w : Nat) (record : AssocList Bytes Bytes) (hkeys : (map.map Prod.fst).Nodup)
    (hmap : objectOf map me.1 = some s.obj) (hobjects : AllObjects map) (hplain : ¬ isPrivate topic = true) :
    HandledFor me after s topic obj.o hd (handleTopic after push w record map topic obj hd).1 := by
  rw [handleTopic, if_neg hplain]
  obtain ⟨l₁, l₂, rfl⟩ := List.append_of_mem (AssocList.mem_of_get (objectOf_eq_some.1 hmap))
  rw [List.map_append, List.map_cons, List.nodup_append] at hkeys
  obtain ⟨-, hcons, hapart⟩ := hkeys
  have hbefore : ∀ e ∈ l₁, e.1 ≠ me.1 := fun e he =>
    hapart e.1 (List.mem_map_of_mem he) me.1 List.mem_cons_self
  have hbehind : ∀ e ∈ l₂, e.1 ≠ me.1 := by
    rintro e he heq
    have hmem : e.1 ∈ l₂.map Prod.fst := List.mem_map_of_mem he
    rw [heq] at hmem
    exact (List.nodup_cons.1 hcons).1 hmem
  rw [postAll_append (fun e he => hobjects e (List.mem_append_left _ he)), postAll_cons]
  obtain ⟨hcache₁, hcount₁⟩ := postAll_of_ne after hbefore topic obj.o hd
  generalize (postAll after topic obj.o l₁ hd).1 = hd₁ at hcache₁ hcount₁ ⊢
  obtain ⟨hcache₂, hcount₂⟩ := postAll_of_ne after hbehind topic obj.o
    (if notifies after topic s.obj then hd₁.post me.1 topic obj.o else hd₁)
  by_cases hnotifies : notifies after topic s.obj = true
  · have htakes : s.takes me after topic = true := by rwa [State.takes, if_neg hplain]
    obtain ⟨hcached, hposted⟩ := handledFor_post hd₁ (hcache₁.trans hcache) obj.o htakes
    rw [if_pos hnotifies] at hcache₂ hcount₂ ⊢
    exact ⟨hcache₂.trans hcached, by rw [hcount₂, hposted, hcount₁]⟩
  · have htakes : ¬ s.takes me after topic = true := by rwa [State.takes, if_neg hplain]
    rw [if_neg hnotifies] at hcache₂ hcount₂ ⊢
    exact handledFor_of_not_takes htakes obj.o (hcache₂.trans (hcache₁.trans hcache)) (hcount₂.trans hcount₁)

/-- `State.handle` is what the body of the handler's loop does for one of its sessions, which is on this
worker when the topic is its own; a topic for all meets no number in the table. -/
theorem handleTopic_session (push : PushResult) {w : Nat} {record : AssocList Bytes Bytes} (hkeys : (map.map Prod.fst).Nodup)
    (hmap : objectOf map me.1 = some s.obj) (hobjects : ¬ isPrivate topic = true → AllObjects map)
    (hhere : isPrivate topic = true → topic = me.1 →
      ∃ bs wId, AssocList.get record topic = some bs ∧ recordWorker bs = .ok wId ∧ w = wId.toNat) :
    HandledFor me after s topic obj.o hd (handleTopic after push w record map topic obj hd).1 := by
  by_cases hprivate : isPrivate topic = true
  · by_cases hmine : topic = me.1
    · subst hmine
      exact handleTopic_own hcache push hmap hprivate (hhere hprivate rfl)
    · exact handleTopic_private hcache push w record hprivate hmine
  · exact handleTopic_plain hcache push w record hkeys hmap (hobjects hprivate) hprivate

end

end

end NgxPlus.Mqtt.Wakeup
