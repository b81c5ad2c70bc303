import NgxPlus.Mqtt.Wakeup

/-!
# From the notifier to the thread of a session

| here | there |
| --- | --- |
| `Node.put`     | the session in `AREA_SUBSCRIBEMAP` is `self.subsMap` itself, and its cache that of the worker (`mqtt.lua:944-969`) |
| `Node.handled` | the semaphores and the cache behind a run of `process_subscribe_handler` (`mqtt_notify_2worker_module.lua:63-125`) |
| `nodeStep`     | `Worker.lean` and `SubscribeThread.lean` in one system |

The notifier puts its entries into the queues, the handler of worker `w` takes those of its own and
posts, and the thread of a session on `w` takes the posts. The other sessions come and go, and the
other workers run their handlers. A push that fails loses the notification, and so does a topic whose
session moved when others come behind it (`Worker.lean`): the runs are those without.

`no_lost_notification`: when the thread waits with nothing posted, the offset that was stored for the
client has reached what was notified, or a message waits for its acknowledgement, or the notification
is still in the worker's queue.
-/

namespace NgxPlus.Mqtt.Wakeup

open ByteMem Decode Trace
open NgxPlus.Diversion (Behind decodeUtf8 decodeUtf8_write encodeUtf8_ok)

/-! ## The system -/

structure Node where
  workers : Workers
  session : State

inductive NodeStep
  | session (c : Step)
  | worker (c : WorkerStep)

section

variable (W : ServerLibs) (L : OffsetCodec) (me : ClientId) (after : Behind) (count : Nat) (serverId : Bytes) (w : Nat)

def Node.put (n : Node) (s : State) : Node where
  session := s
  workers := { n.workers with
    semaphoreCache := Function.update n.workers.semaphoreCache w s.cache
    allSubscribeMap := Function.update n.workers.allSubscribeMap w
      (mqttSet (n.workers.allSubscribeMap w) me.1 (some (.object s.obj))) }

/-- The session behind a run of its worker's handler. -/
def Node.handled (n : Node) (workers : Workers) (r : Handling) : State :=
  { n.session with
    cache := workers.semaphoreCache w
    count := n.session.count + r.posted.count me.1
    underway := fun t => n.session.underway t && !((taken L (n.workers.queue w)).any fun e => e.topic == t) }

def nodeStep (n : Node) : NodeStep → Node
  | .session c => n.put me w (step W me after n.session c)
  | .worker c =>
    let workers := workerStep after L count serverId n.workers c
    match c with
    | .notify _ payload =>
      match decodeUtf8 (payload.drop 8) with
      | .ok (topic, _) => ⟨workers, n.session.notify topic (L.readUint64 payload)⟩
      | .error _ => ⟨workers, n.session⟩
    | .handle push order w' =>
      if w' = w then ⟨workers, n.handled L me w workers (processSubscribeHandler after L push order w n.workers).2⟩
      else ⟨workers, n.session⟩
    | _ => ⟨workers, n.session⟩

/-! ## The runs -/

/-- A step of the session alone. -/
def Step.own : Step → Bool
  | .notify .. => false
  | .handle .. => false
  | _ => true

/-- A whole payload, of a message that was published. -/
def Published (n : Node) (payload : Bytes) : Prop :=
  ∃ topic rest, topic.length ≤ 65535 ∧ payload.drop 8 = utilityMqttWriteUint16 topic.length ++ topic ++ rest ∧
    L.readUint64 payload ≤ currentOffset (n.session.topics topic)

/-- The session stays on worker `w`, and no push fails. A session without a client id that sets a field
does not overwrite it. -/
def NodeOk (n : Node) : NodeStep → Prop
  | .session c => c.own = true ∧ Ok me after n.session c
  | .worker (.notify fails payload) => (∀ v, fails v = false) ∧ Published L n payload
  | .worker (.connect clientId session) => clientId = me.1 → session.worker.toNat = w
  | .worker (.disconnect clientId) => clientId ≠ me.1
  | .worker (.subscribe w' clientId _) => w' = w → clientId ≠ me.1
  | .worker (.field w' field _) => w' = w → field.name ≠ me.1
  | .worker (.handle push order w') => w' = w → VisitsAll L n.workers (.handle push order w') ∧
    ∀ m, n.workers.allSubscribeMap w = some m →
      -- a topic whose session moved, or is not yet in the table, comes last
      (∀ pre t post, order = pre ++ t :: post → EndsRun w n.workers.record m t → post = []) ∧
      -- other topics meet no number in the table
      ∀ t ∈ order, isPrivate t = false → AllObjects m

/-! ## The invariant -/

/-- An entry for the topic is in the queue. -/
def Queued (queue : List Bytes) (t : Bytes) : Prop := ∃ b ∈ queue, ∃ e, decodeEntry L b = .ok e ∧ e.topic = t

/-- The workers have the session: its cache, its place in the table and its record. -/
structure Linked (n : Node) : Prop where
  workers : WorkersInv L serverId n.workers
  cache : n.workers.semaphoreCache w = n.session.cache
  table : ∃ m, n.workers.allSubscribeMap w = some m ∧ objectOf m me.1 = some n.session.obj
  record : isPrivate me.1 = true → SessionOn (· = w) n.workers.record me.1
  /-- What is underway is in the queue. -/
  queued : ∀ t, n.session.underway t = true → (isPrivate t = true → t = me.1) → Queued L (n.workers.queue w) t

structure NodeInv (n : Node) : Prop where
  linked : Linked L me serverId w n
  session : Inv me after n.session

end

/-! ## A run of the worker's handler -/

section

variable {W : ServerLibs} {L : OffsetCodec} {me : ClientId} {after : Behind} {s : State} {count : Nat} {serverId : Bytes}
  {w : Nat} {n : Node}

/-- Of the cache only the session's entry counts. -/
theorem Inv.of_cached (h : Inv me after s) {cache : SemaphoreCache} (hcache : AssocList.get cache me.1 = s.cached me) :
    Inv me after { s with cache := cache } := by
  refine h.of_sameTopics ⟨rfl, rfl, rfl, rfl, rfl, rfl, rfl⟩
    (fun who p hp => h.tasks who p ((State.pass_congr rfl rfl who).symm.trans hp)) ?_ fun t o _ _ ha => .awake ?_
  · have hcounted := h.counted
    rw [Counted] at hcounted ⊢
    rwa [← hcache] at hcounted
  · cases ha with
    | works who p hp hw => exact .works who p ((State.pass_congr rfl rfl who).trans hp) hw
    | posted hp =>
      refine .posted ?_
      rw [Posted] at hp ⊢
      rwa [← hcache] at hp
    | ended he => exact .ended he

/-- The session when the topics of `order` have been handled. -/
def State.settled (s : State) (cache : SemaphoreCache) (count : Nat) (order : List Bytes) : State :=
  { s with
    cache := cache
    count := count
    underway := fun t => s.underway t && !order.contains t }

theorem State.settled_nil (s : State) : s.settled s.cache s.count [] = s := by
  simp only [State.settled, List.contains_nil, Bool.not_false, Bool.and_true]

theorem State.handle_eq (s : State) (me : ClientId) (after : Behind) (topic : Bytes) (offset : Nat) :
    s.handle me after topic offset = { s with
      cache := (s.handle me after topic offset).cache
      count := (s.handle me after topic offset).count
      underway := Function.update s.underway topic false } := by
  rw [State.handle]
  split
  · rfl
  · rfl

theorem State.settled_handle (s : State) (me : ClientId) (after : Behind) (topic : Bytes) (offset : Nat)
    (cache : SemaphoreCache) (count : Nat) (order : List Bytes) :
    (s.handle me after topic offset).settled cache count order = s.settled cache count (topic :: order) := by
  rw [State.handle_eq, State.settled, State.settled]
  simp only [State.mk.injEq, true_and, and_true]
  funext t
  rw [Function.update_apply, List.contains_cons]
  split
  · next ht => rw [ht, BEq.rfl, Bool.true_or, Bool.not_true, Bool.and_false, Bool.false_and]
  · next ht => rw [beq_false_of_ne ht, Bool.false_or]

theorem exists_cached {es : List Popped} {t : Bytes} (hmem : ∃ e ∈ es, e.topic = t) :
    ∃ obj, AssocList.get (es.foldl cacheL1Step []) t = some obj := by
  have hfold : cachedOffset (es.foldl cacheL1Step []) t = (offsetsOf es t).foldl (keep luaAccepts) none :=
    cachedOffset_foldl es [] t
  obtain ⟨e, he, ht⟩ := hmem
  have hin : e.offset ∈ offsetsOf es t := List.mem_map_of_mem (List.mem_filter.2 ⟨he, by simpa using ht⟩)
  cases hl : offsetsOf es t with
  | nil =>
    rw [hl] at hin
    cases hin
  | cons o l =>
    obtain ⟨v, hv⟩ := foldl_keep_isSome luaAccepts l o
    have hstart : (o :: l).foldl (keep luaAccepts) none = some v := hv
    rw [hl, hstart, cachedOffset] at hfold
    obtain ⟨obj, hobj, -⟩ := Option.map_eq_some_iff.1 hfold
    exact ⟨obj, hobj⟩

/-- **The loop over the topics** does to the session what `State.handle` does topic by topic. -/
theorem handleTopics_session (push : PushResult) {record : AssocList Bytes Bytes} {map : SubscribeMap} {cacheL1 : CacheL1}
    (hrec : RecordsRead record) (hkeys : (map.map Prod.fst).Nodup)
    (hhere : isPrivate me.1 = true → SessionOn (· = w) record me.1) {order : List Bytes}
    (hfound : ∀ t ∈ order, ∃ obj, AssocList.get cacheL1 t = some obj)
    (hlast : ∀ pre t post, order = pre ++ t :: post → EndsRun w record map t → post = [])
    (hobjects : ∀ t ∈ order, isPrivate t = false → AllObjects map) (hd : Handling) (s : State)
    (hmap : objectOf map me.1 = some s.obj) (hcache : AssocList.get hd.semaphoreCache me.1 = s.cached me)
    (h : Inv me after s) :
    let r := handleTopics after push w record map cacheL1 order hd
    ∃ cache count, Inv me after (s.settled cache count order) ∧
      AssocList.get r.semaphoreCache me.1 = AssocList.get cache me.1 ∧
      r.posted.count me.1 + s.count = hd.posted.count me.1 + count := by
  induction order generalizing hd s with
  | nil => exact ⟨s.cache, s.count, s.settled_nil.symm ▸ h, hcache, rfl⟩
  | cons t order ih =>
    obtain ⟨obj, hget⟩ := hfound t List.mem_cons_self
    have hstep := h.handle t obj.o
    have hrecord : isPrivate t = true → t = me.1 →
        ∃ bs wId, AssocList.get record t = some bs ∧ recordWorker bs = .ok wId ∧ w = wId.toNat := by
      rintro hpriv rfl
      obtain ⟨-, bs, wId, hbs, hworker, hw⟩ := hhere hpriv
      exact ⟨bs, wId, hbs, hworker, hw.symm⟩
    have hsession : HandledFor me after s t obj.o hd (handleTopic after push w record map t obj hd).1 :=
      handleTopic_session hcache push hkeys hmap
        (fun hplain => hobjects t List.mem_cons_self (Bool.eq_false_iff.2 hplain)) hrecord
    have hstops := handleTopic_stops after push w map t obj hd hrec (hobjects t List.mem_cons_self)
    rw [handleTopics, hget]
    simp only
    cases hout : handleTopic after push w record map t obj hd with
    | mk r' go =>
      rw [hout] at hsession hstops
      simp only at hsession hstops ⊢
      cases go with
      | true =>
        have hmap' : objectOf map me.1 = some (s.handle me after t obj.o).obj := by
          rw [State.handle_eq]
          exact hmap
        obtain ⟨cache, count, hinv, hc, hcount⟩ := ih (fun u hu => hfound u (List.mem_cons_of_mem _ hu))
          (fun pre u post he => hlast (t :: pre) u post (congrArg (t :: ·) he))
          (fun u hu => hobjects u (List.mem_cons_of_mem _ hu)) r' _ hmap' hsession.cached hstep
        have hposted : (handleTopics after push w record map cacheL1 order r').posted.count me.1 + s.count =
            hd.posted.count me.1 + count := by
          have := hsession.posted
          omega
        exact ⟨cache, count, State.settled_handle s me after t obj.o cache count order ▸ hinv, hc, hposted⟩
      | false =>
        obtain rfl := hlast [] t order rfl (hstops rfl)
        have hinv : Inv me after ((s.handle me after t obj.o).settled (s.handle me after t obj.o).cache
            (s.handle me after t obj.o).count []) := (State.settled_nil _).symm ▸ hstep
        rw [State.settled_handle] at hinv
        exact ⟨_, _, hinv, hsession.cached, hsession.posted⟩

/-! ## The queues -/

theorem mem_lpush {queue : Nat → List Bytes} {b : Bytes} (h : b ∈ queue w) (w' : Nat) (value : Bytes) :
    b ∈ lpush queue w' value w := by
  rw [lpush, Function.update_apply]
  split
  · next hw => exact List.mem_append_left _ (hw ▸ h)
  · exact h

theorem mem_lpush_self (queue : Nat → List Bytes) (w : Nat) (value : Bytes) : value ∈ lpush queue w value w := by
  rw [lpush, Function.update_self]
  exact List.mem_append_right _ List.mem_cons_self

theorem mem_foldl_lpush (ps : List (Nat × Bytes)) {queue : Nat → List Bytes} {b : Bytes} (h : b ∈ queue w) :
    b ∈ ps.foldl (fun q e => lpush q e.1 e.2) queue w := by
  induction ps generalizing queue with
  | nil => exact h
  | cons p ps ih => exact ih (mem_lpush h p.1 p.2)

section

variable {fails : Nat → Bool} (hfails : ∀ v, fails v = false)
include hfails

theorem mem_lpushAll (value : Bytes) (ws : List Nat) {queue : Nat → List Bytes} {b : Bytes} (h : b ∈ queue w) :
    b ∈ lpushAll fails value ws queue w := by
  induction ws generalizing queue with
  | nil => exact h
  | cons w' ws ih =>
    rw [lpushAll, hfails, if_neg Bool.false_ne_true]
    exact ih (mem_lpush h w' value)

theorem lpushAll_pushes (value : Bytes) {ws : List Nat} (hw : w ∈ ws) (queue : Nat → List Bytes) :
    value ∈ lpushAll fails value ws queue w := by
  induction ws generalizing queue with
  | nil => cases hw
  | cons w' ws ih =>
    rw [lpushAll, hfails, if_neg Bool.false_ne_true]
    rcases List.mem_cons.1 hw with rfl | hw
    · exact mem_lpushAll hfails value ws (mem_lpush_self queue w value)
    · exact ih hw _

end

theorem Queued.mono {queue queue' : List Bytes} {t : Bytes} (h : Queued L queue t) (hsub : ∀ b ∈ queue, b ∈ queue') :
    Queued L queue' t := by
  obtain ⟨b, hb, he⟩ := h
  exact ⟨b, hsub b hb, he⟩

/-- What the notifier writes of a topic is decoded as an entry of the topic. -/
theorem decodeEntry_write (L : OffsetCodec) (offset : Nat) {topic : Bytes} (hlen : topic.length ≤ 65535) :
    ∃ e, decodeEntry L (L.uint64ToBytes offset ++ (utilityMqttWriteUint16 topic.length ++ topic)) = .ok e ∧
      e.topic = topic := by
  have hdrop : (L.uint64ToBytes offset ++ (utilityMqttWriteUint16 topic.length ++ topic)).drop 8 =
      utilityMqttWriteUint16 topic.length ++ topic ++ [] := by
    rw [List.drop_left' (L.length_uint64ToBytes offset), List.append_nil]
  unfold decodeEntry
  rw [hdrop, decodeUtf8_write hlen]
  exact ⟨_, rfl, rfl⟩

/-- Worker `w` keeps its cache and its table, and nothing is taken from its queue. -/
structure Keeps (w : Nat) (s s' : Workers) : Prop where
  record : s'.record = s.record
  table : s'.allSubscribeMap w = s.allSubscribeMap w
  cache : s'.semaphoreCache w = s.semaphoreCache w
  queue : ∀ b ∈ s.queue w, b ∈ s'.queue w

section

variable {fails : Nat → Bool} (hfails : ∀ v, fails v = false)
include hfails

theorem keeps_notify (w : Nat) (s : Workers) (payload : Bytes) :
    Keeps w s (workerStep after L count serverId s (.notify fails payload)) := by
  have hsame : Keeps w s s := ⟨rfl, rfl, rfl, fun _ hb => hb⟩
  rw [workerStep]
  split
  · next s' hs =>
    obtain ⟨⟨topic, rest⟩, -, hs⟩ := bind_eq_ok.1 hs
    obtain ⟨topicBytes, -, hs⟩ := bind_eq_ok.1 hs
    simp only at hs
    split at hs
    · split at hs
      · exact Except.ok.inj hs ▸ hsame
      · cases hs
      · rw [hfails, if_neg Bool.false_ne_true] at hs
        exact Except.ok.inj hs ▸ ⟨rfl, rfl, rfl, fun _ hb => mem_lpush hb _ _⟩
    · exact Except.ok.inj hs ▸ ⟨rfl, rfl, rfl, fun _ hb => mem_lpushAll hfails _ _ hb⟩
  · exact hsame

/-- **The notifier** puts what it is given into the queue of the worker; a private topic, where its session is. -/
theorem notify_pushes (hcount : 1 ≤ w ∧ w < count) {s : Workers} {payload topic rest : Bytes} (hlen : topic.length ≤ 65535)
    (hpayload : payload.drop 8 = utilityMqttWriteUint16 topic.length ++ topic ++ rest)
    (hhere : isPrivate topic = true → SessionOn (· = w) s.record topic) :
    Queued L ((workerStep after L count serverId s (.notify fails payload)).queue w) topic := by
  obtain ⟨e, he, htopic⟩ := decodeEntry_write L (L.readUint64 payload) hlen
  have hpush : ∃ s', notifyProcess L count fails s payload = .ok s' ∧
      L.uint64ToBytes (L.readUint64 payload) ++ (utilityMqttWriteUint16 topic.length ++ topic) ∈ s'.queue w := by
    simp only [notifyProcess, hpayload, decodeUtf8_write hlen, encodeUtf8_ok hlen, bind, Except.bind]
    split
    · next hpriv =>
      obtain ⟨-, b, wId, hb, hworker, hw⟩ := hhere hpriv
      rw [hb]
      cases b with
      | nil => cases hworker
      | cons workId bs =>
        have hw' : workId.toNat = w := by
          obtain ⟨_, -, hworker⟩ := bind_eq_ok.1 hworker
          obtain ⟨_, -, hworker⟩ := bind_eq_ok.1 hworker
          rw [Except.ok.inj hworker]
          exact hw
        simp only [hfails, Bool.false_eq_true, if_false, hw']
        exact ⟨_, rfl, mem_lpush_self _ _ _⟩
    · refine ⟨_, rfl, lpushAll_pushes hfails _ (List.mem_map.2 ⟨w - 1, List.mem_range.2 ?_, ?_⟩) _⟩
      · omega
      · omega
  obtain ⟨s', hs', hmem⟩ := hpush
  rw [workerStep, hs']
  exact ⟨_, hmem, e, he, htopic⟩

end

/-! ## Steps of the session -/

theorem leave_underway (s : State) (me : ClientId) (who : Runner) : (s.leave me who).underway = s.underway := by
  cases who with
  | thread =>
    rw [State.leave]
    split <;> rfl
  | conn => rfl

theorem step_underway (W : ServerLibs) (me : ClientId) (after : Behind) (s : State) {c : Step} (hown : c.own = true) :
    (step W me after s c).underway = s.underway := by
  cases c with
  | publish topic data index => rfl
  | notify topic offset => cases hown
  | handle topic offset => cases hown
  | forget => rfl
  | expire key => rfl
  | wake order =>
    rw [step, State.wake]
    split
    · split <;> rfl
    · rfl
  | timeout order =>
    rw [step, State.timeout]
    split
    · split <;> rfl
    · rfl
  | read who listing =>
    rw [step, State.readStep]
    split
    · cases who <;> rfl
    · rfl
  | body who clock =>
    rw [step, State.bodyStep]
    split
    · split
      · cases who <;> rfl
      · cases who <;> rfl
    · rfl
  | finish who =>
    rw [step, State.finish]
    split
    · rw [leave_underway]
      split <;> rfl
    · rfl
  | subscribe order mins =>
    rw [step, State.subscribe]
    split <;> rfl
  | puback p =>
    rw [step, State.puback]
    split
    · rfl
    split
    · rfl
    split
    · rfl
    · simp only
      split <;> rfl
  | pingreq =>
    rw [step, State.pingreq]
    split
    · rfl
    · split <;> rfl

theorem Linked.put (h : Linked L me serverId w n) {s : State} (hunderway : s.underway = n.session.underway) :
    Linked L me serverId w (n.put me w s) := by
  obtain ⟨m, hm, -⟩ := h.table
  have hinv := h.workers.setTable w (nodup_mqttSet (h.workers.keys w) me.1 (some (.object s.obj)) rfl)
  refine ⟨⟨hinv.queue, hinv.record, hinv.keys⟩, Function.update_self .., ?_, h.record, fun t ht hmine => ?_⟩
  · refine ⟨AssocList.set m me.1 (.object s.obj), ?_, objectOf_eq_some.2 (AssocList.get_set_self _ _ _)⟩
    rw [Node.put]
    simp only [Function.update_self]
    rw [hm, mqttSet]
    rfl
  · exact h.queued t (hunderway ▸ ht) hmine

/-! ## Steps of the workers -/

theorem Linked.of_keeps (h : Linked L me serverId w n) {workers : Workers} (hinv : WorkersInv L serverId workers)
    (hk : Keeps w n.workers workers) : Linked L me serverId w ⟨workers, n.session⟩ where
  workers := hinv
  cache := hk.cache.trans h.cache
  table := hk.table ▸ h.table
  record hpriv := hk.record ▸ h.record hpriv
  queued t ht hmine := (h.queued t ht hmine).mono hk.queue

theorem Linked.notify {workers : Workers} (h : Linked L me serverId w ⟨workers, n.session⟩) {topic : Bytes} (offset : Nat)
    (hpushed : (isPrivate topic = true → topic = me.1) → Queued L (workers.queue w) topic) :
    Linked L me serverId w ⟨workers, n.session.notify topic offset⟩ where
  workers := h.workers
  cache := h.cache
  table := h.table
  record := h.record
  queued t ht hmine := by
    by_cases htopic : t = topic
    · subst htopic
      exact hpushed hmine
    · exact h.queued t ((Function.update_of_ne htopic ..).symm.trans ht) hmine

theorem Linked.connect (h : Linked L me serverId w n) (after : Behind) (count : Nat) {clientId : Bytes} {session : Session}
    (hstays : clientId = me.1 → session.worker.toNat = w) :
    Linked L me serverId w ⟨workerStep after L count serverId n.workers (.connect clientId session), n.session⟩ := by
  have hinv := h.workers.step after count (.connect clientId session)
  rw [workerStep] at hinv ⊢
  split at hinv
  · next b hb =>
    refine ⟨hinv, h.cache, h.table, fun hpriv => ?_, h.queued⟩
    by_cases hme : clientId = me.1
    · refine ⟨hpriv, b, session.worker, ?_, recordWorker_sessionRecord hb, hstays hme⟩
      rw [hme]
      exact AssocList.get_set_self _ _ _
    · obtain ⟨-, bs, wId, hbs, hworker, hw⟩ := h.record hpriv
      exact ⟨hpriv, bs, wId, (AssocList.get_set_of_ne _ _ (Ne.symm hme)).trans hbs, hworker, hw⟩
  · exact h

theorem Linked.disconnect (h : Linked L me serverId w n) {clientId : Bytes} (hne : clientId ≠ me.1)
    (after : Behind) (count : Nat) :
    Linked L me serverId w ⟨workerStep after L count serverId n.workers (.disconnect clientId), n.session⟩ := by
  refine ⟨h.workers.step after count (.disconnect clientId), h.cache, h.table, fun hpriv => ?_, h.queued⟩
  obtain ⟨-, bs, wId, hbs, hworker, hw⟩ := h.record hpriv
  exact ⟨hpriv, bs, wId, (AssocList.get_delete_of_ne _ hne.symm).trans hbs, hworker, hw⟩

theorem Linked.others (h : Linked L me serverId w n) {w' : Nat} {clientId : Bytes} (hne : w' = w → clientId ≠ me.1)
    (obj : Option SubscribeObj) (after : Behind) (count : Nat) :
    Linked L me serverId w ⟨workerStep after L count serverId n.workers (.subscribe w' clientId obj), n.session⟩ := by
  refine ⟨h.workers.step after count (.subscribe w' clientId obj), h.cache, ?_, h.record, h.queued⟩
  rw [workerStep]
  simp only [Function.update_apply]
  split
  · next hw =>
    subst hw
    obtain ⟨m, hm, hme⟩ := h.table
    rw [objectOf_eq_some] at hme
    rw [hm]
    cases obj with
    | none => exact ⟨_, rfl, objectOf_eq_some.2 ((AssocList.get_delete_of_ne _ (hne rfl).symm).trans hme)⟩
    | some obj => exact ⟨_, rfl, objectOf_eq_some.2 ((AssocList.get_set_of_ne _ _ (hne rfl).symm).trans hme)⟩
  · exact h.table

/-- A field that a session without a client id sets. -/
theorem Linked.field (h : Linked L me serverId w n) {w' : Nat} {field : AreaField} (hne : w' = w → field.name ≠ me.1)
    (value : Nat) (after : Behind) (count : Nat) :
    Linked L me serverId w ⟨workerStep after L count serverId n.workers (.field w' field value), n.session⟩ := by
  refine ⟨h.workers.step after count (.field w' field value), h.cache, ?_, h.record, h.queued⟩
  rw [workerStep]
  simp only [Function.update_apply]
  split
  · next hw =>
    subst hw
    obtain ⟨m, hm, hme⟩ := h.table
    rw [objectOf_eq_some] at hme
    rw [hm]
    exact ⟨_, rfl, objectOf_eq_some.2 ((AssocList.get_set_of_ne _ _ (hne rfl).symm).trans hme)⟩
  · exact h.table

theorem keeps_handle (after : Behind) (L : OffsetCodec) (count : Nat) (serverId : Bytes) (s : Workers) (push : PushResult)
    (order : List Bytes) {w' : Nat} (hne : w' ≠ w) :
    Keeps w s (workerStep after L count serverId s (.handle push order w')) where
  record := rfl
  table := rfl
  cache := Function.update_of_ne hne.symm ..
  queue b hb := by
    refine mem_foldl_lpush _ ?_
    rwa [Function.update_of_ne hne.symm]

theorem mem_taken {queue : List Bytes} {b : Bytes} (hb : b ∈ queue.take drainCount) {e : Popped}
    (he : decodeEntry L b = .ok e) : e ∈ taken L queue :=
  List.mem_filterMap.2 ⟨b, hb, by rw [he]; rfl⟩

/-- **A run of the handler** of the session's worker. -/
theorem NodeInv.handle (h : NodeInv L me after serverId w n) (count : Nat) {push : PushResult} {order : List Bytes}
    (hvisits : VisitsAll L n.workers (.handle push order w))
    (hclear : ∀ m, n.workers.allSubscribeMap w = some m →
      (∀ pre t post, order = pre ++ t :: post → EndsRun w n.workers.record m t → post = []) ∧
        ∀ t ∈ order, isPrivate t = false → AllObjects m) :
    let workers := workerStep after L count serverId n.workers (.handle push order w)
    NodeInv L me after serverId w
      ⟨workers, n.handled L me w workers (processSubscribeHandler after L push order w n.workers).2⟩ := by
  intro workers
  obtain ⟨m, hm, hme⟩ := h.linked.table
  obtain ⟨hlast, hobjects⟩ := hclear m hm
  obtain ⟨hnodup, hmem⟩ := hvisits
  have hrun := h.linked.workers.processSubscribeHandler_eq after push order w
  rw [hm] at hrun
  simp only at hrun
  have hcache₀ : AssocList.get (n.workers.semaphoreCache w) me.1 = n.session.cached me := by
    rw [h.linked.cache]
    rfl
  obtain ⟨cache, cnt, hinv, hcache, hcount⟩ := handleTopics_session push h.linked.workers.recordsRead
    (h.linked.workers.keys w m hm) h.linked.record (fun t ht => exists_cached ((hmem t).1 ht)) hlast hobjects ⟨n.workers.semaphoreCache w, [], [], []⟩
    n.session hme hcache₀ h.session
  have hqueue : ∀ b ∈ (n.workers.queue w).drop drainCount, b ∈ workers.queue w := by
    intro b hb
    refine mem_foldl_lpush _ ?_
    rw [Function.update_self]
    change b ∈ (processSubscribeHandler after L push order w n.workers).1
    rw [hrun]
    exact hb
  have hafter : workers.semaphoreCache w = (processSubscribeHandler after L push order w n.workers).2.semaphoreCache :=
    Function.update_self ..
  refine ⟨⟨h.linked.workers.step after count (.handle push order w), rfl, ⟨m, hm, hme⟩, h.linked.record,
    fun t ht hmine => ?_⟩, ?_⟩
  · -- what is underway was not taken
    obtain ⟨hunderway, hleft⟩ := Bool.and_eq_true_iff.1 ht
    obtain ⟨b, hb, e, he, htopic⟩ := h.linked.queued t hunderway hmine
    rw [← List.take_append_drop drainCount (n.workers.queue w)] at hb
    rcases List.mem_append.1 hb with hb | hb
    · have hany : ((taken L (n.workers.queue w)).any fun e => e.topic == t) = true :=
        List.any_eq_true.2 ⟨e, mem_taken hb he, beq_iff_eq.2 htopic⟩
      rw [hany] at hleft
      cases hleft
    · exact ⟨b, hqueue b hb, e, he, htopic⟩
  · have hstate : n.handled L me w workers (processSubscribeHandler after L push order w n.workers).2 =
        n.session.settled (workers.semaphoreCache w) cnt order := by
      rw [Node.handled, State.settled]
      simp only [State.mk.injEq, true_and, and_true]
      refine ⟨?_, funext fun t => ?_⟩
      · rw [hrun]
        simp only [List.count_nil] at hcount ⊢
        omega
      · congr 2
        rw [Bool.eq_iff_iff, List.any_eq_true, List.contains_iff_mem, hmem]
        simp only [beq_iff_eq]
    rw [hstate]
    refine hinv.of_cached ?_
    rw [hafter, hrun]
    exact hcache

/-! ## Every run -/

/-- **One step** keeps the invariant. -/
theorem NodeInv.step (hL : ReadsBigEndian W.toLibs) (hcount : 1 ≤ w ∧ w < count) (h : NodeInv L me after serverId w n)
    (c : NodeStep) (hok : NodeOk L me after w n c) :
    NodeInv L me after serverId w (nodeStep W L me after count serverId w n c) := by
  cases c with
  | session c => exact ⟨h.linked.put (step_underway W me after n.session hok.1), h.session.step hL c hok.2⟩
  | worker c =>
    cases c with
    | notify fails payload =>
      obtain ⟨hfails, topic, rest, hlen, hpayload, hpublished⟩ := hok
      have hdecode : decodeUtf8 (payload.drop 8) = .ok (topic, rest) := hpayload ▸ decodeUtf8_write hlen rest
      have hlinked := h.linked.of_keeps (h.linked.workers.step after count (.notify fails payload))
        (keeps_notify hfails w n.workers payload)
      rw [nodeStep]
      simp only [hdecode]
      refine ⟨hlinked.notify _ fun hmine => ?_, h.session.notify hpublished⟩
      refine notify_pushes hfails hcount hlen hpayload fun hpriv => ?_
      rw [hmine hpriv]
      exact h.linked.record (hmine hpriv ▸ hpriv)
    | connect clientId session => exact ⟨h.linked.connect after count hok, h.session⟩
    | disconnect clientId => exact ⟨h.linked.disconnect hok after count, h.session⟩
    | subscribe w' clientId obj => exact ⟨h.linked.others hok obj after count, h.session⟩
    | field w' field value => exact ⟨h.linked.field hok value after count, h.session⟩
    | handle push order w' =>
      rw [nodeStep]
      split
      · next hw =>
        subst hw
        obtain ⟨hvisits, hclear⟩ := hok rfl
        exact h.handle count hvisits hclear
      · next hw =>
        exact ⟨h.linked.of_keeps (h.linked.workers.step after count (.handle push order w'))
          (keeps_handle after L count serverId n.workers push order hw), h.session⟩

end

/-! ## A message from the notifier to the client -/

/-- The session is new on worker 1. -/
def newNode : Node where
  workers := { Workers.start with allSubscribeMap := fun _ => some [(clientY.1, .object newSession.obj)] }
  session := newSession

theorem linked_newNode : Linked beCodec clientY [] 1 newNode where
  workers := ⟨by simp [newNode, Workers.start], by simp [newNode, Workers.start], by simp [newNode]⟩
  cache := rfl
  table := ⟨_, rfl, objectOf_eq_some.2 (AssocList.get_cons_self ..)⟩
  record h := absurd h (by decide)
  queued t h := by cases h

/-- `oneWakeup`, with the notification on its way through the queue. -/
def oneNotification : List NodeStep :=
  [.session (.subscribe [subA] []), .session (.read .conn []), .session (.finish .conn),
    .session (.publish [0x61] (toY 7).message.bytes 24), .worker (.notify (fun _ => false) (toBe 8 1 ++ [0, 1, 0x61])),
    .worker (.handle .ok [[0x61]] 1), .session (.wake [subA]), .session (.read .thread []), .session (.body .thread (.still 0)),
    .session (.finish .thread), .session (.puback (pubackOf clientY 1))]

theorem taken_oneNotification :
    taken beCodec ((run (nodeStep bigEndianServer beCodec clientY noneBehind 3 [] 1) newNode
      (oneNotification.take 5)).workers.queue 1) = [⟨1, [0x61], toBe 8 1 ++ [0, 1, 0x61], 12⟩] := by decide +kernel

theorem table_oneNotification :
    (run (nodeStep bigEndianServer beCodec clientY noneBehind 3 [] 1) newNode
      (oneNotification.take 5)).workers.allSubscribeMap 1 = some [(clientY.1, .object ⟨some [[0x61]], false⟩)] := by
  rfl

theorem pass_oneNotification :
    (run (nodeStep bigEndianServer beCodec clientY noneBehind 3 [] 1) newNode (oneNotification.take 7)).session.pass .thread =
      some ⟨[subA], [], false⟩ := by decide +kernel

theorem task_oneNotification :
    (run (nodeStep bigEndianServer beCodec clientY noneBehind 3 [] 1) newNode (oneNotification.take 8)).session.pass .thread =
      some ⟨[], [⟨[0x61], 1, subA⟩], false⟩ := by decide +kernel

theorem resume_oneNotification :
    ((run (nodeStep bigEndianServer beCodec clientY noneBehind 3 [] 1) newNode (oneNotification.take 8)).session.resume
      clientY ⟨[0x61], 1, subA⟩ 0).toOption = some 0 := by decide +kernel

theorem ok_oneNotification :
    Always (nodeStep bigEndianServer beCodec clientY noneBehind 3 [] 1) (NodeOk beCodec clientY noneBehind 1) newNode
      oneNotification := by
  refine ⟨⟨rfl, trivial⟩, ⟨rfl, ?_⟩, ⟨rfl, trivial⟩, ⟨rfl, ?_, ?_⟩, ⟨fun _ => rfl, [0x61], [], ?_, ?_, ?_⟩,
    fun _ => ⟨⟨?_, ?_⟩, fun m hm => ⟨?_, ?_⟩⟩, ⟨rfl, ?_⟩, ⟨rfl, ?_⟩, ⟨rfl, ?_⟩, ⟨rfl, trivial⟩, ⟨rfl, rfl⟩, trivial⟩
  · rintro sub rest more hp hwild
    obtain ⟨rfl, -⟩ := List.cons.inj (congrArg TopicPass.rest (Option.some.inj hp))
    exact absurd hwild (by decide)
  · change ((0 + 1 : Nat) : ℚ) ≤ intMaxRing2
    norm_num [intMaxRing2, intMaxRing1, intMaxRing]
  · exact ⟨{ (toY 7).message with rest := [0, 7, 0, 0, 0, 1] }, by decide +kernel, rfl, by decide +kernel⟩
  · decide
  · decide +kernel
  · decide +kernel
  · decide
  · intro t
    change t ∈ [[0x61]] ↔ ∃ e ∈ taken beCodec ((run (nodeStep bigEndianServer beCodec clientY noneBehind 3 [] 1) newNode
      (oneNotification.take 5)).workers.queue 1), e.topic = t
    rw [taken_oneNotification]
    simp [eq_comm]
  · intro pre t post he _
    have hlen := congrArg List.length he
    simp only [List.length_append, List.length_cons, List.length_nil] at hlen
    exact List.length_eq_zero_iff.1 (by omega)
  · obtain rfl := Option.some.inj (table_oneNotification.symm.trans hm)
    intro t _ _ e he
    exact ⟨_, congrArg Prod.snd (List.mem_singleton.1 he)⟩
  · intro seen hth
    obtain rfl : false = seen := Thread.waiting.inj hth
    exact List.Perm.of_eq (by decide +kernel)
  · rintro sub rest more hp hwild
    obtain ⟨rfl, -⟩ := List.cons.inj (congrArg TopicPass.rest (Option.some.inj (pass_oneNotification.symm.trans hp)))
    exact absurd hwild (by decide)
  · rintro rest k todo more hp old hresume
    obtain ⟨rfl, -⟩ := List.cons.inj (congrArg TopicPass.todo (Option.some.inj (task_oneNotification.symm.trans hp)))
    obtain rfl : (0 : Int) = old :=
      Option.some.inj (resume_oneNotification.symm.trans (congrArg Except.toOption hresume))
    norm_num [intMaxRing2, intMaxRing1, intMaxRing]

end NgxPlus.Mqtt.Wakeup
