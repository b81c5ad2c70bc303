import NgxPlus.Mqtt.QosPass

/-!
# Delivery with QoS over a run

Any topics and any clients: messages are published, offsets are notified, the clients' passes run,
their acknowledgements come, late and twice too, and entries of the outstanding dictionary time out.
`start` is where a client's subscription began, `history` what was sent with QoS and acknowledged,
`written` every frame, `times` the readings of the clock that the script got.

`qos_at_least_once`: a client's offset is never moved past a message that is not settled.
`qos_in_order`: a message with QoS is written only when those before it are settled.
`qos_spaced`: unless one of its topic was acknowledged in between, the next is written after a minute.

The offsets stay below the last third of the ring (`Delivery.lean` has the wrap), `max` of a
subscription and `UNSUBSCRIBE` are left out. A client's id is not given out again while one of
its topics has it (`PassOk.fresh`).
-/

namespace NgxPlus.Mqtt

open ByteMem Trace
open NgxPlus.Diversion (utf8Bytes)

/-! ## The system -/

inductive QosEvent
  /-- `stamp` is what the clock showed when the message was written. -/
  | sent (clientId : ClientId) (topic : Bytes) (offset : Int) (cMsgId : Nat) (stamp : Int)
  | acked (clientId : ClientId) (topic : Bytes) (offset : Int)

structure QosBus where
  server : Server
  topics : Bytes → TopicKey
  start : ClientId → Bytes → Option Int
  /-- The latest event first. -/
  history : List QosEvent
  written : List (ClientId × Bytes)
  times : List Int

def QosBus.init (sequence : Bytes → Option Nat) : QosBus where
  server := ⟨⟨sequence, fun _ => none⟩, fun _ _ => none, [], fun _ _ => none, []⟩
  topics _ := .empty
  start _ _ := none
  history := []
  written := []
  times := []

inductive BusStep
  | publish (topic data : Bytes) (index : Nat)
  | notify (zone : Zone) (topic : Bytes) (offset : Nat)
  | pass (clientId : ClientId) (topic : Bytes) (sQos : Nat) (minoffset : Int) (clock : PassClock)
  | puback (p : Puback)
  /-- An entry of the outstanding dictionary times out. -/
  | expire (key : Bytes)

/-- `f` with `v` for `clientId` and `topic`. -/
def setTopic (f : ClientId → Bytes → Option Int) (clientId : ClientId) (topic : Bytes) (v : Int) :
    ClientId → Bytes → Option Int :=
  Function.update f clientId (Function.update (f clientId) topic (some v))

def QosBus.consumerFrom (s : QosBus) (clientId : ClientId) (topic : Bytes) (newoffset minoffset : Int) : Int :=
  (s.server.consumer clientId topic).getD (initialOffset newoffset minoffset)

def QosBus.passed (L : Libs) (s : QosBus) (clientId : ClientId) (topic : Bytes) (sQos : Nat) (minoffset : Int)
    (clock : PassClock) (newoffset : Int) : QosPass :=
  passFor L clock newoffset clientId.1 topic sQos
    ⟨s.topics topic, s.server.dicts, s.consumerFrom clientId topic newoffset minoffset, [], [], []⟩

def QosBus.pass (L : Libs) (s : QosBus) (clientId : ClientId) (topic : Bytes) (sQos : Nat) (minoffset : Int)
    (clock : PassClock) (newoffset : Int) : QosBus :=
  let r := s.passed L clientId topic sQos minoffset clock newoffset
  { server := { s.server with dicts := r.dicts, consumer := setTopic s.server.consumer clientId topic r.consumer }
    topics := Function.update s.topics topic r.key
    start := setTopic s.start clientId topic ((s.start clientId topic).getD (s.consumerFrom clientId topic newoffset minoffset))
    history := (r.ids.map fun i => .sent clientId topic i.1 i.2.1 i.2.2).reverse ++ s.history
    written := s.written ++ r.sent.map fun f => (clientId, f)
    times := r.looks ++ s.times }

/-- What an acknowledgement finds under its id. -/
def Puback.found (p : Puback) (self : Server) : Option CacheVal :=
  p.msgId.bind fun c => (self.dicts.getOutstanding p.clientId.1 (decimal c)).bind fun o => (openCacheVal o.bytes).toOption

def busStep (W : ServerLibs) (s : QosBus) : BusStep → QosBus
  | .publish topic data index => { s with topics := Function.update s.topics topic (mqttZadd (s.topics topic) data index).1 }
  | .notify zone topic offset =>
    { s with server := { s.server with
        offsets := Function.update s.server.offsets zone (Function.update (s.server.offsets zone) topic (some (offset : Int))) } }
  | .pass clientId topic sQos minoffset clock =>
    match s.server.offsets (subscribeStore topic) topic with
    | none => s
    | some newoffset => s.pass W.toLibs clientId topic sQos minoffset clock newoffset
  | .puback p =>
    { s with
      server := (parseMessagePuback W p s.server).1
      history := ((p.found s.server).toList.map fun v => .acked p.clientId v.topic v.offset) ++ s.history }
  | .expire key =>
    { s with server := { s.server with dicts := { s.server.dicts with
        outstanding := Function.update s.server.dicts.outstanding key none } } }

/-! ## What the parties promise -/

/-- The clients and topics of the subscriptions: their names are written differently from each
other, and from the ids. -/
structure Apart (S : Set (ClientId × Bytes)) : Prop where
  topics : ∀ x ∈ S, ∀ y ∈ S, outstandingKey x.1.1 x.2 = outstandingKey y.1.1 y.2 → x = y
  ids : ∀ x ∈ S, ∀ clientId n, outstandingKey x.1.1 x.2 ≠ outstandingKey clientId (decimal n)

/-- The clock in the page of a pass that began at `resend`: it does not go back, it fits 32 bits in
seconds, and no message expires between the script's look and the server's. -/
structure PageClock.Steady (clock : PageClock) (resend : Int) (zset : SortedSet Nat Bytes) : Prop where
  forward : ∀ i, resend ≤ clock.stamp i
  range : ∀ i, -2 ^ 31 ≤ ceilSeconds (clock.stamp i) ∧ ceilSeconds (clock.stamp i) < 2 ^ 31
  kept : ∀ e ∈ zset.entries, ¬ Expired clock.script e.2 → ∀ i, ¬ Expired (clock.recvTime i) e.2

/-- A pass of a subscription with QoS that finds `newoffset`. -/
structure PassOk (S : Set (ClientId × Bytes)) (s : QosBus) (clientId : ClientId) (topic : Bytes)
    (minoffset : Int) (clock : PassClock) (newoffset : Int) : Prop where
  /-- Where nothing is stored for the topic, it begins on the ring. -/
  initial : s.server.consumer clientId topic = none →
    0 ≤ initialOffset newoffset minoffset ∧ (initialOffset newoffset minoffset : ℚ) ≤ intMaxRing2
  /-- The client's next id is not that of another topic's message in flight. -/
  fresh : ∀ t, (clientId, t) ∈ S → t ≠ topic →
    s.server.dicts.getOutstanding clientId.1 t ≠ some (.msgId (nextMsgId (s.server.dicts.sequence clientId.1)))
  /-- The client is not too far behind, and the script reads inside the set. -/
  reads : ∀ old, resendFrom s.server.dicts clientId.1 topic clock.resend newoffset
      (s.consumerFrom clientId topic newoffset minoffset) = .ok old → old < newoffset →
    currentOffset (s.topics topic) ≤ old + subMaxRange ∧
      PagesInside (s.topics topic).zset (clock.page 0).script (currentOffset (s.topics topic)) (old + 1)
        (min (newoffset - old) subPagesize)
  steady : (clock.page 0).Steady clock.resend (s.topics topic).zset

def BusOk (S : Set (ClientId × Bytes)) (s : QosBus) : BusStep → Prop
  | .publish topic data index =>
    ((currentOffset (s.topics topic) + 1 : Nat) : ℚ) ≤ intMaxRing2 ∧
      StoredAt topic (currentOffset (s.topics topic) + 1) (zaddPayload data index (currentOffset (s.topics topic) + 1))
  | .notify _ topic offset => offset ≤ currentOffset (s.topics topic)
  | .pass clientId topic sQos minoffset clock =>
    (clientId, topic) ∈ S ∧ sQos > 0 ∧ ∀ newoffset, s.server.offsets (subscribeStore topic) topic = some newoffset →
      PassOk S s clientId topic minoffset clock newoffset
  | _ => True

/-! ## Settled messages -/

/-- A message that the client needs no more: it was expired in a pass, the client acknowledged it,
or it is without QoS and was written, if it can be. -/
inductive Settled (L : Libs) (s : QosBus) (clientId : ClientId) (topic : Bytes) (offset : Nat) (m : Bytes) : Prop
  | expired (now : Int) (hnow : now ∈ s.times) (h : Expired now m)
  | acked (h : .acked clientId topic (offset : Int) ∈ s.history)
  | plain (f : Option Bytes) (hf : processQueue L 0 m = .ok ⟨f, none, false⟩) (h : ∀ b ∈ f, (clientId, b) ∈ s.written)

/-- All messages behind the beginning of the subscription up to `p` are settled. -/
def SettledUpTo (L : Libs) (s : QosBus) (clientId : ClientId) (topic : Bytes) (p : Int) : Prop :=
  ∀ begin, s.start clientId topic = some begin → ∀ e ∈ (s.topics topic).zset.entries, begin < e.1 → (e.1 : Int) ≤ p →
    Settled L s clientId topic e.1 e.2

/-- What was sent stays so. -/
structure Grows (s s' : QosBus) : Prop where
  history : s.history <:+ s'.history
  written : s.written <+: s'.written
  times : s.times <:+ s'.times
  start : ∀ clientId topic begin, s.start clientId topic = some begin → s'.start clientId topic = some begin

theorem Settled.grows {L : Libs} {s s' : QosBus} {clientId : ClientId} {topic : Bytes} {offset : Nat} {m : Bytes}
    (h : Settled L s clientId topic offset m) (hg : Grows s s') : Settled L s' clientId topic offset m := by
  cases h with
  | expired now hnow h => exact .expired now (hg.times.mem hnow) h
  | acked h => exact .acked (hg.history.mem h)
  | plain f hf h => exact .plain f hf fun b hb => hg.written.mem (h b hb)

/-! ## The topics -/

structure TopicOk (topic : Bytes) (st : TopicKey) : Prop where
  counter : 0 < currentOffset st → st.counter = some (currentOffset st)
  ring : (currentOffset st : ℚ) ≤ intMaxRing2
  onePerScore : st.zset.OnePerScore
  scores : ∀ e ∈ st.zset.entries, 1 ≤ e.1 ∧ e.1 ≤ currentOffset st
  stored : ∀ e ∈ st.zset.entries, StoredAt topic e.1 e.2

theorem TopicOk.empty (topic : Bytes) : TopicOk topic .empty where
  counter h := absurd h (lt_irrefl 0)
  ring := by
    have hring := ring2_lt_cast (n := 0)
    exact not_lt.1 fun h => absurd (hring.1 h) (by omega)
  onePerScore := List.nodup_nil
  scores e he := by cases he
  stored e he := by cases he

theorem TopicOk.le {topic : Bytes} {st : TopicKey} (h : TopicOk topic st) : currentOffset st ≤ 1431653333 :=
  not_lt.1 fun hlt => not_lt.2 h.ring (ring2_lt_cast.2 hlt)

/-- What a publication adds; nothing that is there is moved, since every message tells its offset. -/
theorem TopicOk.publish {topic data : Bytes} {index : Nat} {st : TopicKey} (h : TopicOk topic st)
    (hring : ((currentOffset st + 1 : Nat) : ℚ) ≤ intMaxRing2)
    (hstored : StoredAt topic (currentOffset st + 1) (zaddPayload data index (currentOffset st + 1))) :
    TopicOk topic (mqttZadd st data index).1 ∧ currentOffset (mqttZadd st data index).1 = currentOffset st + 1 ∧
      ∀ e, e ∈ (mqttZadd st data index).1.zset.entries ↔
        e = (currentOffset st + 1, zaddPayload data index (currentOffset st + 1)) ∨ e ∈ st.zset.entries := by
  have hle := h.le
  have hlt : ¬ currentOffset st ≥ intMaxRing := by
    simp only [intMaxRing]
    omega
  have hpurged : purged st = st.zset := by rw [purged, zaddPurge_eq, if_neg hlt]
  have hkey : (mqttZadd st data index).1 = ⟨some (currentOffset st + 1),
      st.zset.add (currentOffset st + 1) (zaddPayload data index (currentOffset st + 1))⟩ := by
    rw [mqttZadd_fst, ringSucc, if_neg hlt, hpurged]
  have hmem : ∀ e, e ∈ (mqttZadd st data index).1.zset.entries ↔
      e = (currentOffset st + 1, zaddPayload data index (currentOffset st + 1)) ∨ e ∈ st.zset.entries := by
    intro e
    rw [hkey, SortedSet.mem_add]
    refine or_congr_right ⟨fun he => he.1, fun he => ⟨he, fun hm => ?_⟩⟩
    have hsame := (h.stored e he).offset_eq (hm ▸ hstored)
    have := (h.scores e he).2
    omega
  have hcur : currentOffset (mqttZadd st data index).1 = currentOffset st + 1 := by
    rw [hkey]
    rfl
  refine ⟨⟨fun _ => ?_, ?_, ?_, ?_, ?_⟩, hcur, hmem⟩
  · rw [hcur, hkey]
  · rwa [hcur]
  · rw [hkey]
    refine h.onePerScore.add (fun e he => ?_) _
    have := (h.scores e he).2
    omega
  · intro e he
    rw [hcur]
    rcases (hmem e).1 he with rfl | he
    · exact ⟨Nat.le_add_left .., le_rfl⟩
    · have := h.scores e he
      omega
  · intro e he
    rcases (hmem e).1 he with rfl | he
    · exact hstored
    · exact h.stored e he

/-! ## The invariant -/

/-- The offset `p` that is stored for a client. -/
structure ConsumerOk (L : Libs) (s : QosBus) (clientId : ClientId) (topic : Bytes) (begin p : Int) : Prop where
  nonneg : 0 ≤ p
  ring : (p : ℚ) ≤ intMaxRing2
  behind : begin ≤ p
  inside : p ≤ begin ∨ p ≤ currentOffset (s.topics topic)
  settled : SettledUpTo L s clientId topic p

/-- A message that was sent under the client's id `n`. -/
structure SentOk (L : Libs) (s : QosBus) (clientId : ClientId) (topic : Bytes) (o : Int) (n : Nat) : Prop where
  began : ∃ begin, s.start clientId topic = some begin ∧ begin < o
  message : ∃ (x : Send L) (offset : Nat), (offset : Int) = o ∧ (offset, x.message.bytes) ∈ (s.topics topic).zset.entries ∧
    ∀ f ∈ x.frame n, (clientId, f) ∈ s.written
  before : SettledUpTo L s clientId topic (o - 1)

/-- What is in the outstanding dictionary under a client's id, and under a topic. -/
structure DictOk (S : Set (ClientId × Bytes)) (history : List QosEvent) (T : Bytes → Option Outstanding) : Prop where
  ids : ∀ (clientId : ClientId) n v, T (outstandingKey clientId.1 (decimal n)) = some v →
    ∃ (m : Sent) (now : Int), v = .cacheVal m.cacheVal ∧ .sent clientId m.topic m.offset n now ∈ history ∧
      m.timestamp = ceilSeconds now ∧ -2 ^ 31 ≤ m.timestamp ∧ m.timestamp < 2 ^ 31
  topics : ∀ (clientId : ClientId) t v, (clientId, t) ∈ S → T (outstandingKey clientId.1 t) = some v →
    ∃ n, v = .msgId n ∧
      ∀ m : Sent, T (outstandingKey clientId.1 (decimal n)) = some (.cacheVal m.cacheVal) → m.topic = t

structure BusInv (S : Set (ClientId × Bytes)) (L : Libs) (s : QosBus) : Prop where
  topic : ∀ t, TopicOk t (s.topics t)
  notified : ∀ z t o, s.server.offsets z t = some o → o ≤ currentOffset (s.topics t)
  began : ∀ clientId t, s.server.consumer clientId t = none → s.start clientId t = none
  consumer : ∀ clientId t p, s.server.consumer clientId t = some p →
    ∃ begin, s.start clientId t = some begin ∧ ConsumerOk L s clientId t begin p
  sent : ∀ clientId t o n now, .sent clientId t o n now ∈ s.history → (clientId, t) ∈ S ∧ SentOk L s clientId t o n
  acked : ∀ clientId t o, .acked clientId t o ∈ s.history → ∃ n now, .sent clientId t o n now ∈ s.history
  dict : DictOk S s.history s.server.dicts.outstanding

theorem Sent.topic_eq {m m' : Sent} (h : m.cacheVal = m'.cacheVal) : m.topic = m'.topic := by
  have hopen := openCacheVal_cacheVal m
  rw [h, openCacheVal_cacheVal m'] at hopen
  exact (congrArg CacheVal.topic (Except.ok.inj hopen)).symm

/-! ### The dictionary -/

section Dict

variable {S : Set (ClientId × Bytes)} {history history' : List QosEvent} {T T' : Bytes → Option Outstanding}

/-- Entries only go, by a time-out or an acknowledgement. -/
theorem DictOk.fewer (h : DictOk S history T) (hT : ∀ k v, T' k = some v → T k = some v)
    (hh : ∀ e ∈ history, e ∈ history') : DictOk S history' T' where
  ids clientId n v hv := by
    obtain ⟨m, now, hm, hsent, htime⟩ := h.ids clientId n v (hT _ _ hv)
    exact ⟨m, now, hm, hh _ hsent, htime⟩
  topics clientId t v hS hv := by
    obtain ⟨n, hn, hm⟩ := h.topics clientId t v hS (hT _ _ hv)
    exact ⟨n, hn, fun m h' => hm m (hT _ _ h')⟩

theorem update_none_some {k : Bytes} {v : Outstanding} {k' : Bytes} (h : Function.update T k' none k = some v) :
    T k = some v := by
  by_cases hk : k = k'
  · subst hk
    rw [Function.update_self] at h
    cases h
  · rwa [Function.update_of_ne hk] at h

/-- A message of `topic` is sent under the id `n0`. -/
theorem DictOk.send (hS : Apart S) (h : DictOk S history T) {clientId : ClientId} {topic : Bytes} {n0 : Nat} {m0 : Sent}
    {now : Int} (hmem : (clientId, topic) ∈ S) (htopic : m0.topic = topic) (htime : m0.timestamp = ceilSeconds now)
    (hrange : -2 ^ 31 ≤ ceilSeconds now ∧ ceilSeconds now < 2 ^ 31)
    (hfresh : ∀ t, (clientId, t) ∈ S → t ≠ topic → T (outstandingKey clientId.1 t) ≠ some (.msgId n0)) :
    DictOk S (.sent clientId topic m0.offset n0 now :: history)
      (Function.update (Function.update T (outstandingKey clientId.1 topic) (some (.msgId n0)))
        (outstandingKey clientId.1 (decimal n0)) (some (.cacheVal m0.cacheVal))) where
  ids x n v hv := by
    by_cases hk : outstandingKey x.1 (decimal n) = outstandingKey clientId.1 (decimal n0)
    · obtain ⟨hx, rfl⟩ := outstandingKey_decimal_inj hk
      obtain rfl := Subtype.ext hx
      rw [Function.update_self] at hv
      refine ⟨m0, now, (Option.some.inj hv).symm, ?_, htime, by omega, by omega⟩
      rw [htopic]
      exact List.mem_cons_self
    · have hne : outstandingKey x.1 (decimal n) ≠ outstandingKey clientId.1 topic := (hS.ids _ hmem _ _).symm
      rw [Function.update_of_ne hk, Function.update_of_ne hne] at hv
      obtain ⟨m, t, hm, hsent, hrest⟩ := h.ids x n v hv
      exact ⟨m, t, hm, List.mem_cons_of_mem _ hsent, hrest⟩
  topics x t v hx hv := by
    have hne : outstandingKey x.1 t ≠ outstandingKey clientId.1 (decimal n0) := hS.ids _ hx _ _
    rw [Function.update_of_ne hne] at hv
    by_cases hk : outstandingKey x.1 t = outstandingKey clientId.1 topic
    · have hxt := hS.topics _ hx _ hmem hk
      obtain ⟨rfl, rfl⟩ := Prod.mk.inj hxt
      rw [Function.update_self] at hv
      refine ⟨n0, (Option.some.inj hv).symm, fun m hm => ?_⟩
      rw [Function.update_self] at hm
      rw [← htopic]
      exact Sent.topic_eq (Outstanding.cacheVal.inj (Option.some.inj hm)).symm
    · rw [Function.update_of_ne hk] at hv
      obtain ⟨n, rfl, hm⟩ := h.topics x t v hx hv
      refine ⟨n, rfl, fun m h' => ?_⟩
      by_cases hid : outstandingKey x.1 (decimal n) = outstandingKey clientId.1 (decimal n0)
      · obtain ⟨hxc, rfl⟩ := outstandingKey_decimal_inj hid
        obtain rfl := Subtype.ext hxc
        have ht : t ≠ topic := fun he => hk (by rw [he])
        exact absurd hv (hfresh t hx ht)
      · have hother : outstandingKey x.1 (decimal n) ≠ outstandingKey clientId.1 topic := (hS.ids _ hmem _ _).symm
        rw [Function.update_of_ne hid, Function.update_of_ne hother] at h'
        exact hm m h'

end Dict

/-! ### Steps that add nothing to a topic -/

section Grow

variable {L : Libs} {s s' : QosBus} {clientId : ClientId} {topic : Bytes} {begin p o : Int} {n : Nat}

theorem SettledUpTo.grows (h : SettledUpTo L s clientId topic p) (hg : Grows s s')
    (hb : s.start clientId topic = some begin)
    (hz : ∀ e ∈ (s'.topics topic).zset.entries, begin < e.1 → (e.1 : Int) ≤ p → e ∈ (s.topics topic).zset.entries) :
    SettledUpTo L s' clientId topic p := by
  intro b hb' e he hbe hep
  obtain rfl : begin = b := Option.some.inj ((hg.start _ _ _ hb).symm.trans hb')
  exact (h begin hb e (hz e he hbe hep) hbe hep).grows hg

theorem ConsumerOk.grows (h : ConsumerOk L s clientId topic begin p) (hg : Grows s s') (ht : s'.topics = s.topics)
    (hb : s.start clientId topic = some begin) : ConsumerOk L s' clientId topic begin p where
  nonneg := h.nonneg
  ring := h.ring
  behind := h.behind
  inside := by
    rw [ht]
    exact h.inside
  settled := h.settled.grows hg hb fun e he _ _ => by rwa [ht] at he

theorem SentOk.grows (h : SentOk L s clientId topic o n) (hg : Grows s s') (ht : s'.topics = s.topics) :
    SentOk L s' clientId topic o n := by
  obtain ⟨begin, hb, hlt⟩ := h.began
  obtain ⟨x, offset, ho, hmem, hframe⟩ := h.message
  refine ⟨⟨begin, hg.start _ _ _ hb, hlt⟩, ⟨x, offset, ho, by rwa [ht], fun f hf => hg.written.mem (hframe f hf)⟩, ?_⟩
  exact h.before.grows hg hb fun e he _ _ => by rwa [ht] at he

theorem Grows.of_eq (hh : s'.history = s.history) (hw : s'.written = s.written) (ht : s'.times = s.times)
    (hs : s'.start = s.start) : Grows s s' where
  history := by rw [hh]
  written := by rw [hw]
  times := by rw [ht]
  start c t b hb := by rwa [hs]

end Grow

section Steps

variable {S : Set (ClientId × Bytes)} {W : ServerLibs} {s : QosBus}

theorem BusInv.notify (h : BusInv S W.toLibs s) {zone : Zone} {topic : Bytes} {offset : Nat}
    (hok : BusOk S s (.notify zone topic offset)) : BusInv S W.toLibs (busStep W s (.notify zone topic offset)) := by
  have hg : Grows s (busStep W s (.notify zone topic offset)) := .of_eq rfl rfl rfl rfl
  refine ⟨h.topic, fun z t o ho => ?_, h.began, fun clientId t p hp => ?_, fun clientId t o n now ho => ?_, h.acked, h.dict⟩
  · simp only [busStep, Function.update_apply] at ho
    split at ho
    · next hz =>
      simp only [Function.update_apply] at ho
      split at ho
      · next ht =>
        obtain rfl := Option.some.inj ho
        rw [ht]
        exact_mod_cast hok
      · exact h.notified _ t o ho
    · exact h.notified z t o ho
  · obtain ⟨begin, hb, hc⟩ := h.consumer clientId t p hp
    exact ⟨begin, hb, hc.grows hg rfl hb⟩
  · obtain ⟨hS, hsent⟩ := h.sent clientId t o n now ho
    exact ⟨hS, hsent.grows hg rfl⟩

theorem BusInv.expire (h : BusInv S W.toLibs s) (key : Bytes) : BusInv S W.toLibs (busStep W s (.expire key)) := by
  have hg : Grows s (busStep W s (.expire key)) := .of_eq rfl rfl rfl rfl
  refine ⟨h.topic, h.notified, h.began, fun clientId t p hp => ?_, fun clientId t o n now ho => ?_, h.acked, ?_⟩
  · obtain ⟨begin, hb, hc⟩ := h.consumer clientId t p hp
    exact ⟨begin, hb, hc.grows hg rfl hb⟩
  · obtain ⟨hS, hsent⟩ := h.sent clientId t o n now ho
    exact ⟨hS, hsent.grows hg rfl⟩
  · exact h.dict.fewer (fun _ _ => update_none_some) fun _ he => he

/-- A new message is behind everything that was settled. -/
theorem BusInv.publish (h : BusInv S W.toLibs s) {topic data : Bytes} {index : Nat}
    (hok : BusOk S s (.publish topic data index)) : BusInv S W.toLibs (busStep W s (.publish topic data index)) := by
  obtain ⟨hring, hstored⟩ := hok
  obtain ⟨htopic, hcur, hmem⟩ := (h.topic topic).publish hring hstored
  have hg : Grows s (busStep W s (.publish topic data index)) := .of_eq rfl rfl rfl rfl
  have hle : ∀ t, currentOffset (s.topics t) ≤ currentOffset ((busStep W s (.publish topic data index)).topics t) := by
    intro t
    simp only [busStep, Function.update_apply]
    split
    · next ht =>
      subst ht
      omega
    · exact le_rfl
  have hentry : ∀ t e, e ∈ ((busStep W s (.publish topic data index)).topics t).zset.entries →
      e.1 ≤ currentOffset (s.topics t) → e ∈ (s.topics t).zset.entries := by
    intro t e he hle
    simp only [busStep, Function.update_apply] at he
    split at he
    · next ht =>
      subst ht
      rcases (hmem e).1 he with rfl | he
      · simp only at hle
        omega
      · exact he
    · exact he
  have hstays : ∀ t e, e ∈ (s.topics t).zset.entries →
      e ∈ ((busStep W s (.publish topic data index)).topics t).zset.entries := by
    intro t e he
    simp only [busStep, Function.update_apply]
    split
    · next ht =>
      subst ht
      exact (hmem e).2 (Or.inr he)
    · exact he
  refine ⟨fun t => ?_, fun z t o ho => ?_, h.began, fun clientId t p hp => ?_, fun clientId t o n now ho => ?_, h.acked, h.dict⟩
  · simp only [busStep, Function.update_apply]
    split
    · next ht =>
      subst ht
      exact htopic
    · exact h.topic t
  · have := h.notified z t o ho
    have := hle t
    omega
  · obtain ⟨begin, hb, hc⟩ := h.consumer clientId t p hp
    refine ⟨begin, hb, hc.nonneg, hc.ring, hc.behind, ?_, hc.settled.grows hg hb fun e he hbe hep => hentry t e he ?_⟩
    · have := hle t
      exact hc.inside.imp_right fun hp => by omega
    · rcases hc.inside with hin | hin <;> omega
  · obtain ⟨hS, hsent⟩ := h.sent clientId t o n now ho
    obtain ⟨begin, hb, hlt⟩ := hsent.began
    obtain ⟨x, offset, rfl, hmem', hframe⟩ := hsent.message
    have hscore := ((h.topic t).scores _ hmem').2
    refine ⟨hS, ⟨begin, hb, hlt⟩, ⟨x, offset, rfl, hstays t _ hmem', hframe⟩, ?_⟩
    exact hsent.before.grows hg hb fun e he _ heo => hentry t e he (by simp only at hscore; omega)

end Steps

theorem BusInv.offset_ring {S : Set (ClientId × Bytes)} {L : Libs} {s : QosBus} (h : BusInv S L s) (topic : Bytes) {o : Int}
    (ho : o ≤ currentOffset (s.topics topic)) : (o : ℚ) ≤ intMaxRing2 := by
  have hcast : (o : ℚ) ≤ (currentOffset (s.topics topic) : ℚ) := by exact_mod_cast ho
  exact hcast.trans (h.topic topic).ring

/-- A step that moves a client's offset of one topic, and leaves the topics as they are. -/
theorem BusInv.of_moved {S : Set (ClientId × Bytes)} {L : Libs} {s s' : QosBus} {clientId : ClientId} {topic : Bytes}
    {begin p : Int} (h : BusInv S L s) (hg : Grows s s') (htopics : s'.topics = s.topics)
    (hoffsets : s'.server.offsets = s.server.offsets)
    (hmoved : s'.server.consumer = setTopic s.server.consumer clientId topic p)
    (hstart : ∀ x t, s'.start x t = if x = clientId ∧ t = topic then some begin else s.start x t)
    (hconsumer : ConsumerOk L s' clientId topic begin p)
    (hsent : ∀ x t o n stamp, .sent x t o n stamp ∈ s'.history →
      .sent x t o n stamp ∈ s.history ∨ (x, t) ∈ S ∧ SentOk L s' x t o n)
    (hacked : ∀ x t o, .acked x t o ∈ s'.history →
      .acked x t o ∈ s.history ∨ ∃ n stamp, .sent x t o n stamp ∈ s.history)
    (hdict : DictOk S s'.history s'.server.dicts.outstanding) : BusInv S L s' where
  topic t := htopics ▸ h.topic t
  notified z t o ho := by
    rw [htopics]
    exact h.notified z t o (hoffsets ▸ ho)
  began x t hx := by
    rw [hmoved, setTopic, update_update_apply] at hx
    split at hx
    · cases hx
    · next hne =>
      rw [hstart, if_neg hne]
      exact h.began x t hx
  consumer x t o ho := by
    rw [hmoved, setTopic, update_update_apply] at ho
    split at ho
    · next heq =>
      obtain ⟨rfl, rfl⟩ := heq
      obtain rfl := Option.some.inj ho
      exact ⟨begin, by rw [hstart, if_pos ⟨rfl, rfl⟩], hconsumer⟩
    · obtain ⟨b, hb, hc⟩ := h.consumer x t o ho
      exact ⟨b, hg.start _ _ _ hb, hc.grows hg htopics hb⟩
  sent x t o n stamp ho := by
    rcases hsent x t o n stamp ho with hold | hnewly
    · obtain ⟨hxt, hsok⟩ := h.sent x t o n stamp hold
      exact ⟨hxt, hsok.grows hg htopics⟩
    · exact hnewly
  acked x t o ho := by
    rcases hacked x t o ho with hold | ⟨n, stamp, hs⟩
    · obtain ⟨n, stamp, hs⟩ := h.acked x t o hold
      exact ⟨n, stamp, hg.history.mem hs⟩
    · exact ⟨n, stamp, hg.history.mem hs⟩
  dict := hdict

/-! ### Acknowledging -/

theorem parseMessagePuback_offsets (W : ServerLibs) (p : Puback) (self : Server) :
    (parseMessagePuback W p self).1.offsets = self.offsets := by
  rw [parseMessagePuback]
  split
  · rfl
  split
  · simp only
    split
    · rfl
    · split <;> rfl
  · rfl

section Puback

variable {S : Set (ClientId × Bytes)} {W : ServerLibs} {s : QosBus}

/-- An acknowledgement finds nothing, or a message that was sent under its id. -/
theorem found_cases (h : DictOk S s.history s.server.dicts.outstanding) (W : ServerLibs) (p : Puback) :
    (p.found s.server = none ∧ (parseMessagePuback W p s.server).1 = s.server) ∨
      ∃ (m : Sent) (n : Nat) (now : Int), p.found s.server = some ⟨m.pMsgId, m.offset, m.srcCid, m.topic⟩ ∧
        Acked p m s.server (parseMessagePuback W p s.server).1 ∧ .sent p.clientId m.topic m.offset n now ∈ s.history := by
  cases hid : p.msgId with
  | none =>
    left
    refine ⟨by rw [Puback.found, hid]; rfl, parseMessagePuback_none fun c hc => ?_⟩
    rw [hid] at hc
    cases hc
  | some c =>
    cases ho : s.server.dicts.getOutstanding p.clientId.1 (decimal c) with
    | none =>
      left
      refine ⟨?_, parseMessagePuback_none fun c' hc' o ho' => ?_⟩
      · rw [Puback.found, hid, Option.bind_some, ho]
        rfl
      · rw [hid] at hc'
        rw [← Option.some.inj hc', ho] at ho'
        cases ho'
    | some o =>
      right
      obtain ⟨m, now, rfl, hsent, -⟩ := h.ids p.clientId c o ho
      refine ⟨m, c, now, ?_, parseMessagePuback_some hid ho, hsent⟩
      rw [Puback.found, hid, Option.bind_some, ho, Option.bind_some, Outstanding.bytes, openCacheVal_cacheVal]
      rfl

theorem BusInv.puback (h : BusInv S W.toLibs s) (p : Puback) : BusInv S W.toLibs (busStep W s (.puback p)) := by
  rcases found_cases h.dict W p with ⟨hfound, hserver⟩ | ⟨m, n, now, hfound, hacked, hsent⟩
  · rw [busStep, hfound, hserver]
    exact h
  have hhist : (busStep W s (.puback p)).history = .acked p.clientId m.topic m.offset :: s.history := by
    rw [busStep, hfound]
    rfl
  have hg : Grows s (busStep W s (.puback p)) := by
    refine ⟨?_, List.prefix_refl _, List.suffix_refl _, fun _ _ _ hb => hb⟩
    rw [hhist]
    exact List.suffix_cons _ _
  obtain ⟨-, hok⟩ := h.sent _ _ _ _ _ hsent
  obtain ⟨begin, hb, hlt⟩ := hok.began
  obtain ⟨x, offset, hoffset, hmem, -⟩ := hok.message
  obtain ⟨hpos, hle⟩ := (h.topic m.topic).scores _ hmem
  simp only at hpos hle
  have hring : ((m.offset : Int) : ℚ) ≤ intMaxRing2 := h.offset_ring m.topic (by omega)
  have hconsumer : ConsumerOk W.toLibs (busStep W s (.puback p)) p.clientId m.topic begin m.offset := by
    refine ⟨by omega, hring, by omega, Or.inr (by simp only [busStep]; omega), ?_⟩
    -- the message itself is acknowledged, those before it were settled when it was sent
    intro b hb' e he hbe hep
    by_cases heq : (e.1 : Int) = m.offset
    · refine .acked ?_
      rw [hhist, heq]
      exact List.mem_cons_self
    · exact ((hok.before.grows hg hb fun e he _ _ => he) b hb' e he hbe (by omega))
  refine h.of_moved hg rfl (parseMessagePuback_offsets W p s.server) hacked.consumer (fun x t => ?_) hconsumer
    (fun x t o n stamp ho => ?_) (fun x t o ho => ?_) ?_
  · split
    · next heq =>
      obtain ⟨rfl, rfl⟩ := heq
      exact hb
    · rfl
  · rw [hhist] at ho
    exact Or.inl (by simpa using ho)
  · rw [hhist] at ho
    rcases List.mem_cons.1 ho with heq | ho
    · obtain ⟨rfl, rfl, rfl⟩ := QosEvent.acked.inj heq
      exact Or.inr ⟨n, now, hsent⟩
    · exact Or.inl ho
  · refine h.dict.fewer (fun k v hv => ?_) fun e he => hg.history.mem he
    have hd : (busStep W s (.puback p)).server.dicts = _ := hacked.dicts
    rw [hd] at hv
    exact update_none_some (update_none_some hv)

end Puback

/-! ### A pass -/

/-- An `old` from which everything behind the beginning is settled. -/
structure FromOk (L : Libs) (s : QosBus) (clientId : ClientId) (topic : Bytes) (begin old : Int) : Prop where
  nonneg : 0 ≤ old
  ring : (old : ℚ) ≤ intMaxRing2
  behind : begin ≤ old
  settled : ∀ e ∈ (s.topics topic).zset.entries, begin < e.1 → (e.1 : Int) ≤ old → Settled L s clientId topic e.1 e.2

/-- With nothing new a pass does nothing. -/
theorem passFor_idle {L : Libs} {clock : PassClock} {newoffset old : Int} {clientId topic : Bytes} {sQos : Nat}
    {s : QosPass} (hs : sQos > 0)
    (hfrom : resendFrom s.dicts clientId topic clock.resend newoffset s.consumer = .ok old)
    (hring : (old : ℚ) ≤ intMaxRing2) (hle : newoffset ≤ old) : passFor L clock newoffset clientId topic sQos s = s := by
  have hlt : (old : ℚ) < intMaxRing := hring.trans_lt (by norm_num [intMaxRing2, intMaxRing1, intMaxRing])
  have hend : ¬ old ≥ intMaxRing := by
    rw [not_le]
    exact_mod_cast hlt
  have hadjust : ringAdjust old newoffset = (old, newoffset) := by
    rw [ringAdjust, if_neg hend, if_neg fun hx => not_lt.2 hring hx.1]
  rw [passFor, if_pos hs, hfrom]
  simp only [if_neg hend, hadjust, if_neg (show ¬ newoffset > old from not_lt.2 hle)]

section Pass

variable {S : Set (ClientId × Bytes)} {W : ServerLibs} {s : QosBus} {clientId : ClientId} {topic : Bytes}
  {sQos : Nat} {minoffset newoffset : Int} {clock : PassClock}

/-- What is stored for the topic, or where the subscription begins. -/
theorem BusInv.consumerFrom (h : BusInv S W.toLibs s) (hok : PassOk S s clientId topic minoffset clock newoffset) :
    FromOk W.toLibs s clientId topic
      ((s.start clientId topic).getD (s.consumerFrom clientId topic newoffset minoffset))
      (s.consumerFrom clientId topic newoffset minoffset) := by
  rw [QosBus.consumerFrom]
  cases hc : s.server.consumer clientId topic with
  | none =>
    obtain ⟨hnonneg, hring⟩ := hok.initial hc
    rw [h.began clientId topic hc, Option.getD_none, Option.getD_none]
    exact ⟨hnonneg, hring, le_rfl, fun e _ hbe hep => absurd hep (not_le.2 hbe)⟩
  | some p =>
    obtain ⟨begin, hb, hp⟩ := h.consumer clientId topic p hc
    rw [hb, Option.getD_some, Option.getD_some]
    exact ⟨hp.nonneg, hp.ring, hp.behind, fun e he => hp.settled begin hb e he⟩

/-- A pass begins where nothing is new, behind the consumer's offset, or at the message in flight. -/
theorem BusInv.resendFrom_cases (h : BusInv S W.toLibs s) (hmem : (clientId, topic) ∈ S) {consumer old : Int}
    (hfrom : resendFrom s.server.dicts clientId.1 topic clock.resend newoffset consumer = .ok old) :
    old = newoffset ∨ old = consumer ∨
      ∃ (o : Int) (n : Nat) (now' : Int), .sent clientId topic o n now' ∈ s.history ∧ old = o - 1 := by
  cases ho : s.server.dicts.getOutstanding clientId.1 topic with
  | none =>
    rw [resendFrom, ho] at hfrom
    exact Or.inr (Or.inl (Except.ok.inj hfrom).symm)
  | some v =>
    obtain ⟨n, rfl, htopic⟩ := h.dict.topics clientId topic v hmem ho
    cases hid : s.server.dicts.getOutstanding clientId.1 (Outstanding.msgId n).bytes with
    | none =>
      rw [resendFrom, ho] at hfrom
      simp only [hid] at hfrom
      cases hfrom
    | some v =>
      obtain ⟨m, now', rfl, hsent, -, hge, hlt⟩ := h.dict.ids clientId n v hid
      rw [resendFrom_cacheVal hge hlt ho hid] at hfrom
      have hold := (Except.ok.inj hfrom).symm
      rw [htopic m hid] at hsent
      split at hold
      · exact Or.inl hold
      · exact Or.inr (Or.inr ⟨m.offset, n, now', hsent, hold⟩)

theorem BusInv.fromOk (h : BusInv S W.toLibs s) (hmem : (clientId, topic) ∈ S)
    (hok : PassOk S s clientId topic minoffset clock newoffset) {old : Int}
    (hfrom : resendFrom s.server.dicts clientId.1 topic clock.resend newoffset
      (s.consumerFrom clientId topic newoffset minoffset) = .ok old) :
    old = newoffset ∨ FromOk W.toLibs s clientId topic
      ((s.start clientId topic).getD (s.consumerFrom clientId topic newoffset minoffset)) old := by
  rcases h.resendFrom_cases hmem hfrom with hnew | hcons | ⟨o, n, now', hsent, hold⟩
  · exact Or.inl hnew
  · rw [hcons]
    exact Or.inr (h.consumerFrom hok)
  · right
    obtain ⟨-, hsok⟩ := h.sent _ _ _ _ _ hsent
    obtain ⟨begin, hb, hlt⟩ := hsok.began
    obtain ⟨x, offset, hoffset, hentry, -⟩ := hsok.message
    obtain ⟨hpos, hle⟩ := (h.topic topic).scores _ hentry
    simp only at hpos hle
    rw [hb, Option.getD_some]
    refine ⟨by omega, h.offset_ring topic (by omega), by omega, fun e he hbe heo => ?_⟩
    exact hsok.before begin hb e he hbe (by omega)

/-- **What a pass of the system does.** -/
theorem BusInv.passOut (h : BusInv S W.toLibs s) (hL : ReadsBigEndian W.toLibs) (hmem : (clientId, topic) ∈ S)
    (hs : sQos > 0) (hnew : newoffset ≤ currentOffset (s.topics topic))
    (hok : PassOk S s clientId topic minoffset clock newoffset) :
    ∃ old, FromOk W.toLibs s clientId topic
        ((s.start clientId topic).getD (s.consumerFrom clientId topic newoffset minoffset)) old ∧
      (s.passed W.toLibs clientId topic sQos minoffset clock newoffset =
          ⟨s.topics topic, s.server.dicts, s.consumerFrom clientId topic newoffset minoffset, [], [], []⟩ ∨
        resendFrom s.server.dicts clientId.1 topic clock.resend newoffset
          (s.consumerFrom clientId topic newoffset minoffset) = .ok old ∧ old < newoffset) ∧
      PassOut W.toLibs (clock.page 0) clientId topic (currentOffset (s.topics topic)) old
        ⟨s.topics topic, s.server.dicts, s.consumerFrom clientId topic newoffset minoffset, [], [], []⟩
        (s.passed W.toLibs clientId topic sQos minoffset clock newoffset) := by
  have hcons := h.consumerFrom hok
  have hstay : s.passed W.toLibs clientId topic sQos minoffset clock newoffset =
        ⟨s.topics topic, s.server.dicts, s.consumerFrom clientId topic newoffset minoffset, [], [], []⟩ →
      PassOut W.toLibs (clock.page 0) clientId topic (currentOffset (s.topics topic))
        (s.consumerFrom clientId topic newoffset minoffset)
        ⟨s.topics topic, s.server.dicts, s.consumerFrom clientId topic newoffset minoffset, [], [], []⟩
        (s.passed W.toLibs clientId topic sQos minoffset clock newoffset) := fun hr => by
    rw [hr]
    exact .raised _ rfl rfl rfl rfl
  cases hfrom : resendFrom s.server.dicts clientId.1 topic clock.resend newoffset
      (s.consumerFrom clientId topic newoffset minoffset) with
  | error e =>
    have hsame : s.passed W.toLibs clientId topic sQos minoffset clock newoffset =
        ⟨s.topics topic, s.server.dicts, s.consumerFrom clientId topic newoffset minoffset, [], [], []⟩ := by
      rw [QosBus.passed, passFor, if_pos hs, hfrom]
    exact ⟨_, hcons, Or.inl hsame, hstay hsame⟩
  | ok old =>
    have hold := h.fromOk hmem hok hfrom
    by_cases hlt : old < newoffset
    · have hfok := hold.resolve_left hlt.ne
      obtain ⟨hnear, hinside⟩ := hok.reads old hfrom hlt
      have hnonneg := hfok.nonneg
      have hreadable : Readable (clock.page 0) topic (currentOffset (s.topics topic)) newoffset old (s.topics topic) :=
        { counter := (h.topic topic).counter (by omega)
          ring := (h.topic topic).ring
          onePerScore := (h.topic topic).onePerScore
          scores := (h.topic topic).scores
          stored := (h.topic topic).stored
          old_nonneg := hnonneg
          new_le := hnew
          near := hnear
          inside := hinside
          kept := hok.steady.kept }
      exact ⟨old, hfok, Or.inr ⟨rfl, hlt⟩, passFor_spec hL hs hfrom hlt hreadable⟩
    · have hring : (old : ℚ) ≤ intMaxRing2 := by
        rcases hold with heq | hfok
        · exact h.offset_ring topic (by omega)
        · exact hfok.ring
      have hsame : s.passed W.toLibs clientId topic sQos minoffset clock newoffset =
          ⟨s.topics topic, s.server.dicts, s.consumerFrom clientId topic newoffset minoffset, [], [], []⟩ :=
        passFor_idle hs hfrom hring (not_lt.1 hlt)
      exact ⟨_, hcons, Or.inl hsame, hstay hsame⟩

end Pass

section PassStep

variable {S : Set (ClientId × Bytes)} {W : ServerLibs} {s : QosBus} {clientId : ClientId} {topic : Bytes}
  {sQos : Nat} {minoffset newoffset : Int} {clock : PassClock}

theorem Grows.pass (L : Libs) (s : QosBus) (clientId : ClientId) (topic : Bytes) (sQos : Nat) (minoffset : Int)
    (clock : PassClock) (newoffset : Int) :
    Grows s (s.pass L clientId topic sQos minoffset clock newoffset) where
  history := List.suffix_append _ _
  written := List.prefix_append _ _
  times := List.suffix_append _ _
  start x t b hb := by
    simp only [QosBus.pass, setTopic, update_update_apply]
    split
    · next heq =>
      obtain ⟨rfl, rfl⟩ := heq
      rw [hb, Option.getD_some]
    · exact hb

theorem PassOut.key_eq {L : Libs} {clock : PageClock} {old : Int} {clientId : ClientId} {topic : Bytes} {n : Nat}
    {q q' : QosPass} (h : PassOut L clock clientId topic n old q q') : q'.key = q.key := by
  cases h with
  | raised hd hkey => exact hkey
  | advanced max hlt hle hd hkey => exact hkey
  | sent offset m x hlt hmem hclient hstamp hmessage htopic hoffset hframe hd hkey => exact hkey

/-- What a pass handled is settled. -/
theorem HandledIn.settled {L : Libs} {a b now : Int}
    (h : HandledIn L now (s.topics topic).zset (s.passed L clientId topic sQos minoffset clock newoffset).sent a b)
    (hlook : now ∈ (s.passed L clientId topic sQos minoffset clock newoffset).looks) {e : Nat × Bytes}
    (he : e ∈ (s.topics topic).zset.entries) (hae : a < e.1) (heb : (e.1 : Int) < b) :
    Settled L (s.pass L clientId topic sQos minoffset clock newoffset) clientId topic e.1 e.2 := by
  rcases h e he hae heb with hexp | ⟨f, hf, hin⟩
  · exact .expired now (List.mem_append_left _ hlook) hexp
  · refine .plain f hf fun x hx => ?_
    exact List.mem_append_right _ (List.mem_map.2 ⟨x, hin x hx, rfl⟩)

theorem consumerFrom_inside (h : BusInv S W.toLibs s) (clientId : ClientId) (topic : Bytes)
    (newoffset minoffset : Int) :
    s.consumerFrom clientId topic newoffset minoffset ≤
        (s.start clientId topic).getD (s.consumerFrom clientId topic newoffset minoffset) ∨
      s.consumerFrom clientId topic newoffset minoffset ≤ currentOffset (s.topics topic) := by
  rw [QosBus.consumerFrom]
  cases hc : s.server.consumer clientId topic with
  | none =>
    rw [h.began clientId topic hc]
    exact Or.inl le_rfl
  | some p =>
    obtain ⟨begin, hb, hp⟩ := h.consumer clientId topic p hc
    rw [hb]
    exact hp.inside

/-- Behind a pass from `old` everything up to `a` is settled: up to `old` it was before, and the pass handled the rest. -/
theorem FromOk.settledUpTo {L : Libs} {begin old a b : Int} (hfrom : FromOk L s clientId topic begin old)
    (htopics : (s.pass L clientId topic sQos minoffset clock newoffset).topics = s.topics)
    (hstart : (s.pass L clientId topic sQos minoffset clock newoffset).start clientId topic = some begin)
    (hh : HandledIn L (clock.page 0).script (s.topics topic).zset
      (s.passed L clientId topic sQos minoffset clock newoffset).sent old b)
    (hlook : (clock.page 0).script ∈ (s.passed L clientId topic sQos minoffset clock newoffset).looks) (hab : a < b) :
    SettledUpTo L (s.pass L clientId topic sQos minoffset clock newoffset) clientId topic a := by
  intro b' hb' e he hbe hea
  obtain rfl : begin = b' := Option.some.inj (hstart.symm.trans hb')
  rw [htopics] at he
  by_cases heo : (e.1 : Int) ≤ old
  · exact (hfrom.settled e he hbe heo).grows (Grows.pass ..)
  · exact hh.settled hlook he (not_le.1 heo) (by omega)

/-- What is settled where a pass begins stays so. -/
theorem FromOk.stays {L : Libs} {begin p : Int} (hfrom : FromOk L s clientId topic begin p)
    (htopics : (s.pass L clientId topic sQos minoffset clock newoffset).topics = s.topics)
    (hstart : (s.pass L clientId topic sQos minoffset clock newoffset).start clientId topic = some begin)
    (hinside : p ≤ begin ∨ p ≤ currentOffset (s.topics topic)) :
    ConsumerOk L (s.pass L clientId topic sQos minoffset clock newoffset) clientId topic begin p where
  nonneg := hfrom.nonneg
  ring := hfrom.ring
  behind := hfrom.behind
  inside := by
    rw [htopics]
    exact hinside
  settled b hb e he hbe hep := by
    obtain rfl : begin = b := Option.some.inj (hstart.symm.trans hb)
    rw [htopics] at he
    exact (hfrom.settled e he hbe hep).grows (Grows.pass ..)

theorem BusInv.pass (h : BusInv S W.toLibs s) (hS : Apart S) (hL : ReadsBigEndian W.toLibs)
    (hmem : (clientId, topic) ∈ S)
    (hs : sQos > 0) (hnew : newoffset ≤ currentOffset (s.topics topic))
    (hok : PassOk S s clientId topic minoffset clock newoffset) :
    BusInv S W.toLibs (s.pass W.toLibs clientId topic sQos minoffset clock newoffset) := by
  obtain ⟨old, hfrom, -, hout⟩ := h.passOut hL hmem hs hnew hok
  have hcons := h.consumerFrom hok
  have hinside := consumerFrom_inside h clientId topic newoffset minoffset
  have hg := Grows.pass W.toLibs s clientId topic sQos minoffset clock newoffset
  have htopics : (s.pass W.toLibs clientId topic sQos minoffset clock newoffset).topics = s.topics := by
    rw [QosBus.pass, hout.key_eq]
    exact Function.update_eq_self topic s.topics
  have hstarts : ∀ x t, (s.pass W.toLibs clientId topic sQos minoffset clock newoffset).start x t =
      if x = clientId ∧ t = topic then
        some ((s.start clientId topic).getD (s.consumerFrom clientId topic newoffset minoffset))
      else s.start x t := fun x t => by simp only [QosBus.pass, setTopic, update_update_apply]
  have hstart := (hstarts clientId topic).trans (if_pos ⟨rfl, rfl⟩)
  have hstay := hcons.stays htopics hstart hinside
  have hhist : (s.pass W.toLibs clientId topic sQos minoffset clock newoffset).history =
      ((s.passed W.toLibs clientId topic sQos minoffset clock newoffset).ids.map fun i =>
        .sent clientId topic i.1 i.2.1 i.2.2).reverse ++ s.history := rfl
  have hd' : (s.pass W.toLibs clientId topic sQos minoffset clock newoffset).server.dicts =
      (s.passed W.toLibs clientId topic sQos minoffset clock newoffset).dicts := rfl
  cases hout with
  | raised hd hkey hc hids =>
    simp only [hids, List.map_nil, List.reverse_nil, List.nil_append] at hhist
    refine h.of_moved hg htopics rfl rfl hstarts (by rwa [hc]) (fun _ _ _ _ _ ho => Or.inl (hhist ▸ ho))
      (fun _ _ _ ho => Or.inl (hhist ▸ ho)) ?_
    rw [hhist, hd', hd]
    exact h.dict
  | advanced max hlt hle hd hkey hc hids hlook hh =>
    simp only [hids, List.map_nil, List.reverse_nil, List.nil_append] at hhist
    have hbehind := hfrom.behind
    have hnonneg := hfrom.nonneg
    refine h.of_moved hg htopics rfl rfl hstarts ?_ (fun _ _ _ _ _ ho => Or.inl (hhist ▸ ho))
      (fun _ _ _ ho => Or.inl (hhist ▸ ho)) ?_
    · rw [hc]
      refine ⟨by omega, h.offset_ring topic hle, by omega, ?_, hfrom.settledUpTo htopics hstart hh hlook (by omega)⟩
      rw [htopics]
      exact Or.inr hle
    · rw [hhist, hd', hd]
      exact h.dict
  | sent offset m x hlt hentry hclient hstamp hmessage htopic hoffset hframe hd hkey hc hids hlook hh =>
    have hbehind := hfrom.behind
    subst hclient
    simp only [hids, List.nil_append, List.map_cons, List.map_nil, List.reverse_singleton, List.singleton_append] at hhist
    refine h.of_moved hg htopics rfl rfl hstarts (by rwa [hc]) (fun y t o n stamp ho => ?_) (fun _ _ _ ho => ?_) ?_
    · rw [hhist] at ho
      rcases List.mem_cons.1 ho with heq | ho
      · obtain ⟨rfl, rfl, rfl, rfl, rfl⟩ := QosEvent.sent.inj heq
        refine Or.inr ⟨hmem, ⟨_, hstart, by omega⟩, ⟨x, offset, rfl, ?_, fun f hf => ?_⟩,
          hfrom.settledUpTo htopics hstart hh hlook (by omega)⟩
        · rw [htopics, hmessage]
          exact hentry
        · exact List.mem_append_right _ (List.mem_map.2 ⟨f, hframe f hf, rfl⟩)
      · exact Or.inl ho
    · rw [hhist] at ho
      exact Or.inl (by simpa using ho)
    · rw [hhist, hd', hd]
      have hfresh : ∀ t, (x.clientId, t) ∈ S → t ≠ topic →
          s.server.dicts.outstanding (outstandingKey x.clientId.1 t) ≠ some (.msgId (x.cMsgId s.server.dicts)) := hok.fresh
      obtain ⟨i, hi⟩ := hstamp
      have hrange := hok.steady.range i
      rw [← hi] at hrange
      have hsend := h.dict.send hS hmem htopic rfl hrange hfresh
      rwa [hoffset] at hsend

theorem BusInv.init (S : Set (ClientId × Bytes)) (L : Libs) (sequence : Bytes → Option Nat) :
    BusInv S L (.init sequence) where
  topic t := .empty t
  notified _ _ _ ho := by cases ho
  began _ _ _ := rfl
  consumer _ _ _ hp := by cases hp
  sent _ _ _ _ _ ho := by cases ho
  acked _ _ _ ho := by cases ho
  dict := ⟨fun _ _ _ hv => (by cases hv), fun _ _ _ _ hv => (by cases hv)⟩

/-- **One step** keeps the invariant. -/
theorem BusInv.step (hS : Apart S) (hL : ReadsBigEndian W.toLibs) (h : BusInv S W.toLibs s) (c : BusStep)
    (hok : BusOk S s c) : BusInv S W.toLibs (busStep W s c) := by
  cases c with
  | publish topic data index => exact h.publish hok
  | notify zone topic offset => exact h.notify hok
  | pass clientId topic sQos minoffset clock =>
    obtain ⟨hmem, hs, hpass⟩ := hok
    rw [busStep]
    cases ho : s.server.offsets (subscribeStore topic) topic with
    | none => exact h
    | some newoffset => exact h.pass hS hL hmem hs (h.notified _ _ _ ho) (hpass newoffset ho)
  | puback p => exact h.puback p
  | expire key => exact h.expire key

end PassStep

/-! ## What holds of every run -/

section Runs

variable {S : Set (ClientId × Bytes)} {W : ServerLibs}

theorem BusInv.run (hS : Apart S) (hL : ReadsBigEndian W.toLibs) (sequence : Bytes → Option Nat) {cs : List BusStep}
    (hok : Always (busStep W) (BusOk S) (.init sequence) cs) :
    BusInv S W.toLibs (Trace.run (busStep W) (.init sequence) cs) :=
  run_inv (busStep W) (fun _ c h hc => h.step hS hL c hc) (.init S W.toLibs sequence) hok

/-- **At least once**: in every run, all messages up to a client's offset, from where its
subscription began, are settled. -/
theorem qos_at_least_once (hS : Apart S) (hL : ReadsBigEndian W.toLibs) (sequence : Bytes → Option Nat)
    (cs : List BusStep) (hok : Always (busStep W) (BusOk S) (.init sequence) cs) (clientId : ClientId) (topic : Bytes)
    (p : Int) :
    let s := Trace.run (busStep W) (.init sequence) cs
    s.server.consumer clientId topic = some p →
      ∃ begin, s.start clientId topic = some begin ∧ ∀ e ∈ (s.topics topic).zset.entries, begin < e.1 →
        (e.1 : Int) ≤ p → Settled W.toLibs s clientId topic e.1 e.2 := by
  intro s hp
  obtain ⟨begin, hb, hc⟩ := (BusInv.run hS hL sequence hok).consumer clientId topic p hp
  exact ⟨begin, hb, hc.settled begin hb⟩

/-- **In order**: what was sent with QoS was written under its id, and all messages before it are
settled; what was acknowledged was sent. -/
theorem qos_in_order (hS : Apart S) (hL : ReadsBigEndian W.toLibs) (sequence : Bytes → Option Nat)
    (cs : List BusStep) (hok : Always (busStep W) (BusOk S) (.init sequence) cs) (clientId : ClientId) (topic : Bytes)
    (o : Int) :
    let s := Trace.run (busStep W) (.init sequence) cs
    (∀ n now, .sent clientId topic o n now ∈ s.history → SentOk W.toLibs s clientId topic o n) ∧
      (.acked clientId topic o ∈ s.history → ∃ n now, .sent clientId topic o n now ∈ s.history) := by
  intro s
  have h := BusInv.run hS hL sequence hok
  exact ⟨fun n now ho => (h.sent clientId topic o n now ho).2, h.acked clientId topic o⟩

end Runs

/-! ## The minute between two sendings -/

/-- When a message of the topic was last sent to the client, unless one was acknowledged since. -/
def lastSend (clientId : ClientId) (topic : Bytes) : List QosEvent → Option Int
  | [] => none
  | .sent x t _ _ now :: history => if x = clientId ∧ t = topic then some now else lastSend clientId topic history
  | .acked x t _ :: history => if x = clientId ∧ t = topic then none else lastSend clientId topic history

/-- Whenever a message is sent, the last one of its topic was sent a minute before, or one was
acknowledged since. -/
def Spaced : List QosEvent → Prop
  | [] => True
  | .sent clientId topic _ _ now :: history =>
    (∀ t ∈ lastSend clientId topic history, 60 ≤ ceilSeconds now - ceilSeconds t) ∧ Spaced history
  | .acked _ _ _ :: history => Spaced history

/-- The promises, and no entry of the dictionary times out. -/
def Kept (S : Set (ClientId × Bytes)) (s : QosBus) (c : BusStep) : Prop := BusOk S s c ∧ ∀ key, c ≠ .expire key

/-- The message sent last is still known by its topic; under its id is its time, if anything. -/
def LastOk (history : List QosEvent) (T : Bytes → Option Outstanding) : Prop :=
  ∀ clientId topic t, lastSend clientId topic history = some t →
    ∃ n, T (outstandingKey clientId.1 topic) = some (.msgId n) ∧
      ∀ b, T (outstandingKey clientId.1 (decimal n)) = some (.cacheVal b) → readUint32 (b.drop 6) = some (ceilSeconds t)

theorem exists_sent_of_lastSend {clientId : ClientId} {topic : Bytes} {history : List QosEvent} {t : Int}
    (h : lastSend clientId topic history = some t) : ∃ o n, .sent clientId topic o n t ∈ history := by
  induction history with
  | nil => cases h
  | cons e history ih =>
    cases e with
    | sent x u o n now =>
      rw [lastSend] at h
      split at h
      · next heq =>
        obtain ⟨rfl, rfl⟩ := heq
        obtain rfl := Option.some.inj h
        exact ⟨o, n, List.mem_cons_self⟩
      · obtain ⟨o', n', h'⟩ := ih h
        exact ⟨o', n', List.mem_cons_of_mem _ h'⟩
    | acked x u o =>
      rw [lastSend] at h
      split at h
      · cases h
      · obtain ⟨o', n', h'⟩ := ih h
        exact ⟨o', n', List.mem_cons_of_mem _ h'⟩

theorem readUint32_cacheVal {m : Sent} (hge : -2 ^ 31 ≤ m.timestamp) (hlt : m.timestamp < 2 ^ 31) :
    readUint32 (m.cacheVal.drop 6) = some m.timestamp := by
  have hdrop : m.cacheVal.drop 6 = uint32ToBytes m.timestamp ++ (utf8Bytes m.srcCid ++ utf8Bytes m.topic) := by
    rw [Sent.cacheVal, cacheValOf, ← List.append_assoc]
    exact List.drop_left' rfl
  rw [hdrop]
  exact readUint32_append hge hlt _

section Spacing

variable {S : Set (ClientId × Bytes)} {W : ServerLibs} {s : QosBus} {clientId : ClientId} {topic : Bytes}

/-- A pass goes on only once the last message is a minute old. -/
theorem spaced_of_resend (h : BusInv S W.toLibs s) (hlast : LastOk s.history s.server.dicts.outstanding)
    {now newoffset consumer old t : Int}
    (hfrom : resendFrom s.server.dicts clientId.1 topic now newoffset consumer = .ok old) (hlt : old < newoffset)
    (ht : lastSend clientId topic s.history = some t) : 60 ≤ ceilSeconds now - ceilSeconds t := by
  obtain ⟨n, hn, hb⟩ := hlast clientId topic t ht
  have hn' : s.server.dicts.getOutstanding clientId.1 topic = some (.msgId n) := hn
  cases hid : s.server.dicts.getOutstanding clientId.1 (Outstanding.msgId n).bytes with
  | none =>
    rw [resendFrom, hn'] at hfrom
    simp only [hid] at hfrom
    cases hfrom
  | some v =>
    obtain ⟨m, now', rfl, -, -, hge, hle⟩ := h.dict.ids clientId n v hid
    rw [resendFrom_cacheVal hge hle hn' hid] at hfrom
    have htime := Option.some.inj ((readUint32_cacheVal hge hle).symm.trans (hb _ hid))
    have hold := Except.ok.inj hfrom
    split at hold
    · omega
    · omega

theorem LastOk.send (hS : Apart S) (hsent : ∀ x u o n t, .sent x u o n t ∈ s.history → (x, u) ∈ S)
    (hlast : LastOk s.history s.server.dicts.outstanding) {n0 : Nat} {m0 : Sent} {now : Int}
    (hmem : (clientId, topic) ∈ S) (htime : m0.timestamp = ceilSeconds now)
    (hrange : -2 ^ 31 ≤ ceilSeconds now ∧ ceilSeconds now < 2 ^ 31)
    (hfresh : ∀ t, (clientId, t) ∈ S → t ≠ topic →
      s.server.dicts.outstanding (outstandingKey clientId.1 t) ≠ some (.msgId n0)) :
    LastOk (.sent clientId topic m0.offset n0 now :: s.history)
      (Function.update (Function.update s.server.dicts.outstanding (outstandingKey clientId.1 topic) (some (.msgId n0)))
        (outstandingKey clientId.1 (decimal n0)) (some (.cacheVal m0.cacheVal))) := by
  intro x u t ht
  rw [lastSend] at ht
  split at ht
  · next heq =>
    obtain ⟨rfl, rfl⟩ := heq
    obtain rfl := Option.some.inj ht
    refine ⟨n0, ?_, fun b hb => ?_⟩
    · rw [Function.update_of_ne (hS.ids _ hmem _ _), Function.update_self]
    · rw [Function.update_self] at hb
      obtain rfl := Outstanding.cacheVal.inj (Option.some.inj hb)
      rw [readUint32_cacheVal (by omega) (by omega), htime]
  · next hne =>
    obtain ⟨o, k, hs⟩ := exists_sent_of_lastSend ht
    have hxu := hsent _ _ _ _ _ hs
    obtain ⟨n, hn, hb⟩ := hlast x u t ht
    have hkey : outstandingKey x.1 u ≠ outstandingKey clientId.1 topic := by
      intro he
      have hpair := hS.topics _ hxu _ hmem he
      obtain ⟨rfl, rfl⟩ := Prod.mk.inj hpair
      exact hne ⟨rfl, rfl⟩
    refine ⟨n, ?_, fun b hb' => ?_⟩
    · rw [Function.update_of_ne (hS.ids _ hxu _ _), Function.update_of_ne hkey]
      exact hn
    · by_cases hid : outstandingKey x.1 (decimal n) = outstandingKey clientId.1 (decimal n0)
      · obtain ⟨hx, rfl⟩ := outstandingKey_decimal_inj hid
        obtain rfl := Subtype.ext hx
        exact absurd hn (hfresh u hxu fun he => hkey (by rw [he]))
      · rw [Function.update_of_ne hid, Function.update_of_ne (hS.ids _ hmem _ _).symm] at hb'
        exact hb b hb'

theorem LastOk.acked (hS : Apart S) (hsent : ∀ x u o n t, .sent x u o n t ∈ s.history → (x, u) ∈ S)
    (hlast : LastOk s.history s.server.dicts.outstanding) (hmem : (clientId, topic) ∈ S) (o : Int) (k : Nat) :
    LastOk (.acked clientId topic o :: s.history)
      (Function.update (Function.update s.server.dicts.outstanding (outstandingKey clientId.1 (decimal k)) none)
        (outstandingKey clientId.1 topic) none) := by
  intro x u t ht
  rw [lastSend] at ht
  split at ht
  · cases ht
  · next hne =>
    obtain ⟨o', k', hs⟩ := exists_sent_of_lastSend ht
    have hxu := hsent _ _ _ _ _ hs
    obtain ⟨n, hn, hb⟩ := hlast x u t ht
    have hkey : outstandingKey x.1 u ≠ outstandingKey clientId.1 topic := by
      intro he
      have hpair := hS.topics _ hxu _ hmem he
      obtain ⟨rfl, rfl⟩ := Prod.mk.inj hpair
      exact hne ⟨rfl, rfl⟩
    refine ⟨n, ?_, fun b hb' => hb b (update_none_some (update_none_some hb'))⟩
    rw [Function.update_of_ne hkey, Function.update_of_ne (hS.ids _ hxu _ _)]
    exact hn

/-- The invariant with the times. -/
structure SpacedInv (S : Set (ClientId × Bytes)) (L : Libs) (s : QosBus) : Prop where
  bus : BusInv S L s
  last : LastOk s.history s.server.dicts.outstanding
  spaced : Spaced s.history

theorem SpacedInv.pass (hS : Apart S) (hL : ReadsBigEndian W.toLibs) (h : SpacedInv S W.toLibs s) {sQos : Nat}
    {minoffset newoffset : Int} {clock : PassClock} (hmem : (clientId, topic) ∈ S) (hs : sQos > 0)
    (hnew : newoffset ≤ currentOffset (s.topics topic)) (hok : PassOk S s clientId topic minoffset clock newoffset) :
    LastOk (s.pass W.toLibs clientId topic sQos minoffset clock newoffset).history
        (s.pass W.toLibs clientId topic sQos minoffset clock newoffset).server.dicts.outstanding ∧
      Spaced (s.pass W.toLibs clientId topic sQos minoffset clock newoffset).history := by
  obtain ⟨old, -, hwhy, hout⟩ := h.bus.passOut hL hmem hs hnew hok
  have hhist : (s.pass W.toLibs clientId topic sQos minoffset clock newoffset).history =
      ((s.passed W.toLibs clientId topic sQos minoffset clock newoffset).ids.map fun i =>
        .sent clientId topic i.1 i.2.1 i.2.2).reverse ++ s.history := rfl
  have hdicts : (s.pass W.toLibs clientId topic sQos minoffset clock newoffset).server.dicts =
      (s.passed W.toLibs clientId topic sQos minoffset clock newoffset).dicts := rfl
  rw [hdicts]
  cases hout with
  | raised hd hkey hc hids =>
    simp only [hids, List.map_nil, List.reverse_nil, List.nil_append] at hhist
    rw [hhist, hd]
    exact ⟨h.last, h.spaced⟩
  | advanced max hlt hle hd hkey hc hids hlook hh =>
    simp only [hids, List.map_nil, List.reverse_nil, List.nil_append] at hhist
    rw [hhist, hd]
    exact ⟨h.last, h.spaced⟩
  | sent offset m x hlt hentry hclient hstamp hmessage htopic hoffset hframe hd hkey hc hids hlook hh =>
    subst hclient
    simp only [hids, List.nil_append, List.map_cons, List.map_nil, List.reverse_singleton, List.singleton_append] at hhist
    have hfresh : ∀ t, (x.clientId, t) ∈ S → t ≠ topic →
        s.server.dicts.outstanding (outstandingKey x.clientId.1 t) ≠ some (.msgId (x.cMsgId s.server.dicts)) := hok.fresh
    obtain ⟨i, hi⟩ := hstamp
    have hrange := hok.steady.range i
    have hforward := ceilSeconds_mono (hok.steady.forward i)
    rw [← hi] at hrange hforward
    rw [hhist, hd]
    refine ⟨?_, fun t ht => ?_, h.spaced⟩
    · have htime : x.sent.timestamp = ceilSeconds x.stamp := rfl
      have hsend := h.last.send hS (fun _ _ _ _ _ ho => (h.bus.sent _ _ _ _ _ ho).1) hmem htime hrange hfresh
      rwa [hoffset] at hsend
    · rcases hwhy with hsame | ⟨hfrom, hless⟩
      · rw [hsame] at hids
        cases hids
      · exact (spaced_of_resend h.bus h.last hfrom hless ht).trans (sub_le_sub_right hforward _)

theorem SpacedInv.step (hS : Apart S) (hL : ReadsBigEndian W.toLibs) (h : SpacedInv S W.toLibs s) (c : BusStep)
    (hok : Kept S s c) : SpacedInv S W.toLibs (busStep W s c) := by
  obtain ⟨hok, hkept⟩ := hok
  have hnext : LastOk (busStep W s c).history (busStep W s c).server.dicts.outstanding ∧ Spaced (busStep W s c).history := by
    cases c with
    | publish topic data index => exact ⟨h.last, h.spaced⟩
    | notify zone topic offset => exact ⟨h.last, h.spaced⟩
    | expire key => exact absurd rfl (hkept key)
    | pass clientId topic sQos minoffset clock =>
      obtain ⟨hmem, hs, hpass⟩ := hok
      rw [busStep]
      cases ho : s.server.offsets (subscribeStore topic) topic with
      | none => exact ⟨h.last, h.spaced⟩
      | some newoffset => exact h.pass hS hL hmem hs (h.bus.notified _ _ _ ho) (hpass newoffset ho)
    | puback p =>
      rcases found_cases h.bus.dict W p with ⟨hfound, hserver⟩ | ⟨m, n, now, hfound, hacked, hsent⟩
      · rw [busStep, hfound, hserver]
        exact ⟨h.last, h.spaced⟩
      · have hhist : (busStep W s (.puback p)).history = .acked p.clientId m.topic m.offset :: s.history := by
          rw [busStep, hfound]
          rfl
        have hd : (busStep W s (.puback p)).server.dicts = _ := hacked.dicts
        rw [hhist, hd]
        refine ⟨?_, h.spaced⟩
        exact h.last.acked hS (fun _ _ _ _ _ ho => (h.bus.sent _ _ _ _ _ ho).1) (h.bus.sent _ _ _ _ _ hsent).1 _ _
  exact ⟨h.bus.step hS hL c hok, hnext.1, hnext.2⟩

end Spacing

/-! ## A message that is sent and acknowledged -/

theorem steady_still {now : Int} (hlow : -2 ^ 31 ≤ ceilSeconds now) (hhigh : ceilSeconds now < 2 ^ 31)
    (zset : SortedSet Nat Bytes) : ((PassClock.still now).page 0).Steady now zset where
  forward _ := le_rfl
  range _ := ⟨hlow, hhigh⟩
  kept _ _ h _ := h

/-- Without an expired message the first page is the last one. -/
theorem pagesInside_of_fresh {zset : SortedSet Nat Bytes} {now min pagesize : Int} {n : Nat}
    (hfresh : ∀ e ∈ zset.entries, ¬ Expired now e.2) (hle : min + pagesize - 1 ≤ n) :
    PagesInside zset now n min pagesize := by
  right
  intro s hs
  rcases Relation.ReflTransGen.cases_head hs with rfl | ⟨l, hnext, -⟩
  · rw [wanted_first]
    omega
  · obtain ⟨e, he, -, -, hexp⟩ := hnext.expired
    exact absurd hexp (hfresh e he)

theorem length_nameY : ([0x79] : Bytes).length ≤ 65535 := by decide

def clientY : ClientId := ⟨[0x79], length_nameY⟩

def subscriptionsY : Set (ClientId × Bytes) := {(clientY, [0x61])}

theorem apart_subscriptionsY : Apart subscriptionsY where
  topics x hx y hy _ := by rw [Set.mem_singleton_iff.1 hx, Set.mem_singleton_iff.1 hy]
  ids x hx clientId n h := by
    rw [Set.mem_singleton_iff.1 hx] at h
    -- the topic is not a number
    have hlast : (0x61 : UInt8) ∈ decimal n ∨ (0x61 : UInt8) = 0x2f := by
      have hl := congrArg List.getLast? h
      simp only [outstandingKey, clientY, List.getLast?_append, List.getLast?_cons] at hl
      cases hd : (decimal n).getLast? with
      | none =>
        rw [hd] at hl
        simp at hl
      | some b =>
        rw [hd] at hl
        left
        have hb : b = 0x61 := by simpa using hl.symm
        exact hb ▸ List.mem_of_getLast? hd
    rcases hlast with hmem | hslash
    · obtain ⟨c, hc, he⟩ := List.mem_map.1 hmem
      have hdigit := toNat_of_mem_toDigits hc
      have hbyte : (UInt8.ofNat c.toNat).toNat = 0x61 := by rw [he]; rfl
      rw [UInt8.toNat_ofNat'] at hbyte
      omega
    · exact absurd hslash (by decide)

/-- Published, notified, sent to `y` and acknowledged. -/
def oneMessage : List BusStep :=
  [.publish [0x61] (toY 7).message.bytes 24, .notify .topicDict [0x61] 1, .pass clientY [0x61] 1 0 (.still 0),
    .puback (pubackOf clientY 1)]

theorem readsBigEndian_server : ReadsBigEndian bigEndianServer.toLibs where
  redis _ _ := rfl
  server _ _ := rfl

theorem kept_oneMessage : Always (busStep bigEndianServer) (Kept subscriptionsY) (.init fun _ => none) oneMessage := by
  refine ⟨⟨⟨?_, ?_⟩, nofun⟩, ⟨?_, nofun⟩, ⟨⟨rfl, by decide, fun newoffset hn => ?_⟩, nofun⟩, ⟨trivial, nofun⟩, trivial⟩
  · change ((0 + 1 : Nat) : ℚ) ≤ intMaxRing2
    norm_num [intMaxRing2, intMaxRing1, intMaxRing]
  · exact ⟨{ (toY 7).message with rest := [0, 7, 0, 0, 0, 1] }, by decide +kernel, rfl, by decide +kernel⟩
  · change (1 : Nat) ≤ _
    decide +kernel
  · obtain rfl : (1 : Int) = newoffset := Option.some.inj hn
    refine ⟨fun _ => ⟨by decide, ?_⟩, fun t ht hne => ?_, fun old hfrom _ => ?_, steady_still (by decide) (by decide) _⟩
    · norm_num [initialOffset, intMaxRing2, intMaxRing1, intMaxRing]
    · exact absurd (Prod.mk.inj (Set.mem_singleton_iff.1 ht)).2 hne
    · obtain rfl : (0 : Int) = old := Except.ok.inj hfrom
      refine ⟨by decide +kernel, pagesInside_of_fresh (fun e _ hexp => ?_) (by decide +kernel)⟩
      have h1 : 0 < timestampOf e.2 := hexp.1
      have h2 : timestampOf e.2 < 0 := hexp.2
      omega

theorem qos_at_least_once_one :
    ∃ begin, (Trace.run (busStep bigEndianServer) (.init fun _ => none) oneMessage).start clientY [0x61] = some begin ∧
      ∀ e ∈ ((Trace.run (busStep bigEndianServer) (.init fun _ => none) oneMessage).topics [0x61]).zset.entries,
        begin < e.1 → (e.1 : Int) ≤ 1 →
        Settled bigEndianServer.toLibs (Trace.run (busStep bigEndianServer) (.init fun _ => none) oneMessage) clientY
          [0x61] e.1 e.2 :=
  qos_at_least_once apart_subscriptionsY readsBigEndian_server (fun _ => none) oneMessage
    (kept_oneMessage.imp _ fun _ _ h => h.1) clientY [0x61] 1 (by decide +kernel)

theorem qos_in_order_one :
    (∀ n now, .sent clientY [0x61] 1 n now ∈ (Trace.run (busStep bigEndianServer) (.init fun _ => none) oneMessage).history →
        SentOk bigEndianServer.toLibs (Trace.run (busStep bigEndianServer) (.init fun _ => none) oneMessage) clientY [0x61] 1 n) ∧
      (.acked clientY [0x61] 1 ∈ (Trace.run (busStep bigEndianServer) (.init fun _ => none) oneMessage).history →
        ∃ n now, .sent clientY [0x61] 1 n now ∈ (Trace.run (busStep bigEndianServer) (.init fun _ => none) oneMessage).history) :=
  qos_in_order apart_subscriptionsY readsBigEndian_server (fun _ => none) oneMessage
    (kept_oneMessage.imp _ fun _ _ h => h.1) clientY [0x61] 1

end NgxPlus.Mqtt
